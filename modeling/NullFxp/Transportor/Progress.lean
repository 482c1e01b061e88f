import Mathlib.Algebra.BigOperators.Group.List.Basic
import Mathlib.Algebra.Ring.Int.Defs
import Mathlib.Algebra.Ring.Nat
import NullFxp.Transportor.Resume

/-!
# The figures that are shown

Each routine that copies a file emits its size, and after every part the number of bytes so far and
the length of the part. Some of them keep these numbers in an `int`, some in a `quint64`, and the
dialog adds up what it gets.
-/

namespace NullFxp.Transportor

/-! ## Machine integers -/

/-- A value stored in an `int` of 32 bits. An overflow wraps, as it does on the machines. -/
def int (x : Int) : Int := (x + 0x80000000) % 0x100000000 - 0x80000000

/-- A value stored in a `quint64`. A negative `int` becomes a large number. -/
def quint64 (x : Int) : Int := x % 0x10000000000000000

theorem int_eq {x : Int} (h : 0 ≤ x) (h' : x < 0x80000000) : int x = x := by
  unfold int
  omega

theorem int_add_int (x y : Int) : int (int x + y) = int (x + y) := by
  unfold int
  omega

theorem quint64_eq_iff {x : Int} (h : 0 ≤ x) : quint64 x = x ↔ x < 0x10000000000000000 := by
  unfold quint64
  omega

theorem quint64_add_quint64 (x y : Int) : quint64 (quint64 x + y) = quint64 (x + y) := by
  unfold quint64
  omega

theorem quint64_int_iff {x : Int} (h : 0 ≤ x) (h' : x < 0x8000000000000000) :
    quint64 (int x) = x ↔ x < 0x80000000 := by
  unfold quint64 int
  omega

/-! ## The signals -/

inductive Signal where
  | gotFileSize (size : Int)
  | percentChanged (percent totalTransfered transferDelta : Int)
  deriving DecidableEq

/-- A signal, and how many bytes of the file were at the destination when it was emitted. -/
abbrev Emission := Nat × Signal

section Routines

-- `pcnt` is the cast of `100.0 * ((double)tran_len / (double)file_size)` to an `int`, and for the
-- part that is there already (`true`) that of `100.0 * ((double)tran_len) / (double)file_size`.
variable (pcnt : Bool → Int → Int → Int)

/-- The loop over the parts, with `store` as the type of `tran_len`. A part is read and written as
a whole. -/
def partsLoop (store : Int → Int) (fileSize : Int) : Nat → Int → List Nat → List Emission
  | _, _, [] => []
  | present, tranLen, rlen :: parts =>
    let wlen := int rlen
    let tranLen := store (tranLen + wlen)
    let percent := if fileSize = 0 then 100 else pcnt false tranLen fileSize
    (present + rlen, .percentChanged percent (quint64 tranLen) wlen) ::
      partsLoop store fileSize (present + rlen) tranLen parts

/-- The signals of a routine, with `sizeOf` as the type of `file_size`: the size, the part that is
there when the copy is resumed, and the parts. -/
def routineSignals (sizeOf store : Int → Int) (resume : Option Nat) (size : Nat) (parts : List Nat) :
    List Emission :=
  let fileSize := sizeOf size
  (resume.getD 0, .gotFileSize (quint64 fileSize)) ::
    match resume with
    | none => partsLoop pcnt store fileSize 0 0 parts
    | some offset =>
      let wlen := int offset
      let tranLen := store (0 + wlen)
      (offset, .percentChanged (pcnt true tranLen fileSize) (quint64 tranLen) wlen) ::
        partsLoop pcnt store fileSize offset tranLen parts

def runFileToSftpSignals : Option Nat → Nat → List Nat → List Emission :=
  routineSignals pcnt quint64 quint64

def runSftpToFileSignals : Option Nat → Nat → List Nat → List Emission := routineSignals pcnt int int

def runSftpToSftpSignals : Nat → List Nat → List Emission := routineSignals pcnt int int none

def runFileToFtpSignals : Nat → List Nat → List Emission := routineSignals pcnt int int none

/-- The size comes from `LibFtp::size`. -/
def runFtpToFileSignals : Nat → List Nat → List Emission := routineSignals pcnt quint64 int none

def runSftpToFtpSignals : Nat → List Nat → List Emission := routineSignals pcnt int int none

end Routines

inductive Routine where
  | fileToSftp (resume : Option Nat)
  | sftpToFile (resume : Option Nat)
  | sftpToSftp
  | fileToFtp
  | ftpToFile
  | sftpToFtp
  deriving DecidableEq

namespace Routine

/-- The length of the buffer. -/
def buf : Routine → Nat
  | fileToSftp _ | sftpToSftp => 5120
  | sftpToFile _ | fileToFtp | ftpToFile | sftpToFtp => 8192

/-- What is at the destination before the first part. -/
def offset : Routine → Nat
  | fileToSftp resume | sftpToFile resume => resume.getD 0
  | _ => 0

def signals (pcnt : Bool → Int → Int → Int) : Routine → Nat → List Nat → List Emission
  | fileToSftp resume => runFileToSftpSignals pcnt resume
  | sftpToFile resume => runSftpToFileSignals pcnt resume
  | sftpToSftp => runSftpToSftpSignals pcnt
  | fileToFtp => runFileToFtpSignals pcnt
  | ftpToFile => runFtpToFileSignals pcnt
  | sftpToFtp => runSftpToFtpSignals pcnt

end Routine

/-- A file that is copied in these parts. -/
structure Transfer where
  routine : Routine
  size : Nat
  parts : List Nat
  size_lt : size < 0x8000000000000000
  parts_pos : ∀ c ∈ parts, 0 < c ∧ c ≤ routine.buf
  whole : routine.offset + parts.sum = size

def Transfer.signals (pcnt : Bool → Int → Int → Int) (t : Transfer) : List Emission :=
  t.routine.signals pcnt t.size t.parts

/-! ## The dialog -/

structure ProgressDialog where
  totalTransfered : Int
  totalFilesSize : Int
  totalAbtainedSize : Int
  abtainedFilesCount : Int
  currAbtainedSize : Int

namespace ProgressDialog

/-- The constructor does not set `total_transfered`. -/
def new (totalTransfered : Int) : ProgressDialog := ⟨totalTransfered, 0, 0, 0, 0⟩

def slotSetTransferPercent (percent totalTransfered transferDelta : Int) (d : ProgressDialog) :
    ProgressDialog :=
  { d with
    totalTransfered := totalTransfered
    currAbtainedSize := quint64 (d.currAbtainedSize + transferDelta)
    totalAbtainedSize := quint64 (d.totalAbtainedSize + transferDelta)
    abtainedFilesCount :=
      if percent = 100 then quint64 (d.abtainedFilesCount + 1) else d.abtainedFilesCount }

def slotTransferGotFileSize (size : Int) (d : ProgressDialog) : ProgressDialog :=
  { d with totalFilesSize := quint64 (d.totalFilesSize + size) }

def receive (d : ProgressDialog) : Signal → ProgressDialog
  | .gotFileSize size => d.slotTransferGotFileSize size
  | .percentChanged percent total delta => d.slotSetTransferPercent percent total delta

/-- The dialog after the files. -/
def after (pcnt : Bool → Int → Int → Int) (d : ProgressDialog) (files : List Transfer) : ProgressDialog :=
  (files.flatMap fun t => (t.signals pcnt).map Prod.snd).foldl receive d

end ProgressDialog

/-! ## What is exact -/

/-- The sizes that are emitted. -/
def sizes (es : List Emission) : List Int :=
  es.filterMap fun e =>
    match e.2 with
    | .gotFileSize size => some size
    | .percentChanged _ _ _ => none

/-- The lengths of parts that are emitted. -/
def deltas (es : List Emission) : List Int :=
  es.filterMap fun e =>
    match e.2 with
    | .gotFileSize _ => none
    | .percentChanged _ _ delta => some delta

section

variable (present : Nat) (size percent total delta : Int) (es : List Emission)

@[simp] theorem sizes_nil : sizes [] = [] := rfl

@[simp] theorem sizes_size : sizes ((present, .gotFileSize size) :: es) = size :: sizes es := rfl

@[simp] theorem sizes_percent :
    sizes ((present, .percentChanged percent total delta) :: es) = sizes es := rfl

@[simp] theorem deltas_nil : deltas [] = [] := rfl

@[simp] theorem deltas_size : deltas ((present, .gotFileSize size) :: es) = deltas es := rfl

@[simp] theorem deltas_percent :
    deltas ((present, .percentChanged percent total delta) :: es) = delta :: deltas es := rfl

end

/-- Every total that is emitted is what is at the destination then. -/
def TotalsExact (es : List Emission) : Prop :=
  ∀ (present : Nat) (percent total delta : Int),
    (present, Signal.percentChanged percent total delta) ∈ es → total = present

/-- One size is emitted, and it is the size of the file, and the totals are exact. -/
def Transfer.Exact (pcnt : Bool → Int → Int → Int) (t : Transfer) : Prop :=
  sizes (t.signals pcnt) = [(t.size : Int)] ∧ TotalsExact (t.signals pcnt)

theorem totalsExact_cons {present : Nat} {percent total delta : Int} {es : List Emission} :
    TotalsExact ((present, .percentChanged percent total delta) :: es) ↔
      total = present ∧ TotalsExact es := by
  constructor
  · intro h
    exact ⟨h _ _ _ _ List.mem_cons_self, fun _ _ _ _ he => h _ _ _ _ (List.mem_cons_of_mem _ he)⟩
  · rintro ⟨htotal, h⟩ _ _ _ _ he
    rcases List.mem_cons.mp he with he | he
    · cases he
      exact htotal
    · exact h _ _ _ _ he

theorem totalsExact_size {present : Nat} {size : Int} {es : List Emission} :
    TotalsExact ((present, .gotFileSize size) :: es) ↔ TotalsExact es := by
  constructor
  · intro h _ _ _ _ he
    exact h _ _ _ _ (List.mem_cons_of_mem _ he)
  · intro h _ _ _ _ he
    rcases List.mem_cons.mp he with he | he
    · cases he
    · exact h _ _ _ _ he

theorem totalsExact_nil : TotalsExact [] := fun _ _ _ _ he => absurd he (List.not_mem_nil)

/-! ## The loop over the parts -/

section Parts

variable {pcnt : Bool → Int → Int → Int} {store : Int → Int} {fileSize tranLen : Int} {present : Nat}
  {parts : List Nat}

theorem partsLoop_sizes : sizes (partsLoop pcnt store fileSize present tranLen parts) = [] := by
  induction parts generalizing present tranLen with
  | nil => rfl
  | cons c parts ih =>
    rw [partsLoop, sizes_percent]
    exact ih

variable (hparts : ∀ c ∈ parts, c < 0x80000000)

include hparts

theorem partsLoop_deltas :
    (deltas (partsLoop pcnt store fileSize present tranLen parts)).sum = (parts.sum : Int) := by
  induction parts generalizing present tranLen with
  | nil => rfl
  | cons c parts ih =>
    have hc := hparts c List.mem_cons_self
    have hint : int (c : Int) = c := int_eq (by omega) (by omega)
    have hrest := fun x hx => hparts x (List.mem_cons_of_mem c hx)
    rw [partsLoop, deltas_percent, List.sum_cons, ih hrest, hint, List.sum_cons, Int.natCast_add]

theorem partsLoop_quint64 (htran : tranLen = present)
    (hsize : present + parts.sum < 0x8000000000000000) :
    TotalsExact (partsLoop pcnt quint64 fileSize present tranLen parts) := by
  induction parts generalizing present tranLen with
  | nil => exact totalsExact_nil
  | cons c parts ih =>
    have hc := hparts c List.mem_cons_self
    have hint : int (c : Int) = c := int_eq (by omega) (by omega)
    have hrest := fun x hx => hparts x (List.mem_cons_of_mem c hx)
    rw [List.sum_cons] at hsize
    have hnext : quint64 (tranLen + c) = ↑(present + c) := by
      have hlt := (quint64_eq_iff (x := tranLen + c) (by omega)).mpr (by omega)
      omega
    rw [partsLoop]
    simp only [hint, hnext]
    refine totalsExact_cons.mpr ⟨?_, ih hrest rfl (by omega)⟩
    exact (quint64_eq_iff (by omega)).mpr (by omega)

theorem partsLoop_int_iff (htran : tranLen = int present)
    (hsize : present + parts.sum < 0x8000000000000000) :
    TotalsExact (partsLoop pcnt int fileSize present tranLen parts) ↔
      parts = [] ∨ present + parts.sum < 0x80000000 := by
  induction parts generalizing present tranLen with
  | nil => exact ⟨fun _ => .inl rfl, fun _ => totalsExact_nil⟩
  | cons c parts ih =>
    have hc := hparts c List.mem_cons_self
    have hint : int (c : Int) = c := int_eq (by omega) (by omega)
    have hrest := fun x hx => hparts x (List.mem_cons_of_mem c hx)
    rw [List.sum_cons] at hsize ⊢
    have hnext : int (tranLen + c) = int ↑(present + c) := by
      rw [htran, int_add_int, Int.natCast_add]
    rw [partsLoop]
    simp only [hint, hnext]
    rw [totalsExact_cons, ih hrest rfl (by omega), quint64_int_iff (by omega) (by omega)]
    constructor
    · rintro ⟨hlt, rfl | hsum⟩
      · right
        rw [List.sum_nil]
        omega
      · omega
    · rintro (hnil | hsum)
      · cases hnil
      · exact ⟨by omega, .inr (by omega)⟩

end Parts

/-! ## One routine -/

theorem quint64_quint64 (x : Int) : quint64 (quint64 x) = quint64 x := by
  unfold quint64
  omega

theorem int_int (x : Int) : int (int x) = int x := by
  unfold int
  omega

section

variable {pcnt : Bool → Int → Int → Int} {sizeOf store : Int → Int} {resume : Option Nat} {size : Nat}
  {parts : List Nat}

theorem routineSignals_sizes :
    sizes (routineSignals pcnt sizeOf store resume size parts) = [quint64 (sizeOf size)] := by
  cases resume with
  | none => rw [routineSignals, sizes_size, partsLoop_sizes]
  | some offset => rw [routineSignals, sizes_size, sizes_percent, partsLoop_sizes]

variable (hparts : ∀ c ∈ parts, c < 0x80000000)

include hparts

theorem routineSignals_deltas (hwhole : resume.getD 0 + parts.sum = size)
    (hoffset : resume.getD 0 < 0x80000000) :
    (deltas (routineSignals pcnt sizeOf store resume size parts)).sum = (size : Int) := by
  cases resume with
  | none =>
    rw [Option.getD_none] at hwhole
    rw [routineSignals, deltas_size, partsLoop_deltas hparts]
    omega
  | some offset =>
    rw [Option.getD_some] at hwhole hoffset
    rw [routineSignals, deltas_size, deltas_percent, List.sum_cons, partsLoop_deltas hparts,
      int_eq (by omega) (by omega)]
    omega

variable (hwhole : resume.getD 0 + parts.sum = size) (hsize : size < 0x8000000000000000)

include hwhole hsize

theorem routineSignals_quint64_iff :
    TotalsExact (routineSignals pcnt sizeOf quint64 resume size parts) ↔
      resume.getD 0 < 0x80000000 := by
  cases resume with
  | none =>
    rw [Option.getD_none] at hwhole ⊢
    rw [routineSignals, totalsExact_size]
    exact iff_of_true (partsLoop_quint64 hparts rfl (by omega)) (by omega)
  | some offset =>
    rw [Option.getD_some] at hwhole ⊢
    rw [routineSignals, totalsExact_size, totalsExact_cons, Int.zero_add, quint64_quint64,
      quint64_int_iff (by omega) (by omega)]
    constructor
    · rintro ⟨hoffset, -⟩
      omega
    · intro hoffset
      refine ⟨by omega, partsLoop_quint64 hparts ?_ (by omega)⟩
      exact (quint64_int_iff (by omega) (by omega)).mpr (by omega)

theorem routineSignals_int_iff :
    TotalsExact (routineSignals pcnt sizeOf int resume size parts) ↔ size < 0x80000000 := by
  cases resume with
  | none =>
    rw [Option.getD_none, Nat.zero_add] at hwhole
    rw [routineSignals, totalsExact_size, partsLoop_int_iff hparts (show (0 : Int) = int (0 : Nat) from rfl)
      (by omega)]
    constructor
    · rintro (rfl | hsum)
      · rw [List.sum_nil] at hwhole
        omega
      · omega
    · intro h
      exact .inr (by omega)
  | some offset =>
    rw [Option.getD_some] at hwhole
    rw [routineSignals, totalsExact_size, totalsExact_cons, Int.zero_add, int_int,
      quint64_int_iff (by omega) (by omega), partsLoop_int_iff hparts rfl (by omega)]
    constructor
    · rintro ⟨hoffset, rfl | hsum⟩
      · rw [List.sum_nil] at hwhole
        omega
      · omega
    · intro h
      exact ⟨by omega, .inr (by omega)⟩

theorem routineSignals_exact_quint64 :
    (sizes (routineSignals pcnt quint64 quint64 resume size parts) = [(size : Int)] ∧
      TotalsExact (routineSignals pcnt quint64 quint64 resume size parts)) ↔
    resume.getD 0 < 0x80000000 := by
  have hquint : quint64 (quint64 (size : Int)) = size := by
    rw [quint64_quint64, quint64_eq_iff (by omega)]
    omega
  rw [routineSignals_sizes, hquint, routineSignals_quint64_iff hparts hwhole hsize]
  exact and_iff_right rfl

theorem routineSignals_exact_int (hsizeOf : sizeOf = int ∨ sizeOf = quint64) :
    (sizes (routineSignals pcnt sizeOf int resume size parts) = [(size : Int)] ∧
      TotalsExact (routineSignals pcnt sizeOf int resume size parts)) ↔ size < 0x80000000 := by
  rw [routineSignals_sizes, routineSignals_int_iff hparts hwhole hsize]
  refine and_iff_right_of_imp ?_
  intro hlt
  congr 1
  rcases hsizeOf with rfl | rfl
  · exact (quint64_int_iff (by omega) (by omega)).mpr (by omega)
  · rw [quint64_quint64, quint64_eq_iff (by omega)]
    omega

end

namespace Transfer

variable {pcnt : Bool → Int → Int → Int} (t : Transfer)

/-- What the numbers of the routine hold: an upload over SFTP starts below 2 GiB, and for all the
others the file is smaller than that. -/
def Fits : Prop :=
  match t.routine with
  | .fileToSftp resume => resume.getD 0 < 0x80000000
  | _ => t.size < 0x80000000

theorem buf_le (r : Routine) : r.buf ≤ 8192 := by
  cases r <;> simp [Routine.buf]

theorem parts_lt : ∀ c ∈ t.parts, c < 0x80000000 := by
  intro c hc
  have hpart := t.parts_pos c hc
  have hbuf := buf_le t.routine
  omega

theorem exact_iff : t.Exact pcnt ↔ t.Fits := by
  obtain ⟨routine, size, parts, hsize, hpos, hwhole⟩ := t
  have hparts := parts_lt ⟨routine, size, parts, hsize, hpos, hwhole⟩
  cases routine with
  | fileToSftp resume => exact routineSignals_exact_quint64 hparts hwhole hsize
  | sftpToFile resume => exact routineSignals_exact_int hparts hwhole hsize (.inl rfl)
  | sftpToSftp => exact routineSignals_exact_int hparts hwhole hsize (.inl rfl)
  | fileToFtp => exact routineSignals_exact_int hparts hwhole hsize (.inl rfl)
  | ftpToFile => exact routineSignals_exact_int hparts hwhole hsize (.inr rfl)
  | sftpToFtp => exact routineSignals_exact_int hparts hwhole hsize (.inl rfl)

theorem deltas_sum (h : t.Fits) : (deltas (t.signals pcnt)).sum = (t.size : Int) := by
  obtain ⟨routine, size, parts, hsize, hpos, hwhole⟩ := t
  have hparts := parts_lt ⟨routine, size, parts, hsize, hpos, hwhole⟩
  have hle : routine.offset ≤ size := by
    have hwhole : routine.offset + parts.sum = size := hwhole
    omega
  cases routine with
  | fileToSftp resume => exact routineSignals_deltas hparts hwhole h
  | sftpToFile resume => exact routineSignals_deltas hparts hwhole (lt_of_le_of_lt hle h)
  | sftpToSftp => exact routineSignals_deltas hparts hwhole (by simp)
  | fileToFtp => exact routineSignals_deltas hparts hwhole (by simp)
  | ftpToFile => exact routineSignals_deltas hparts hwhole (by simp)
  | sftpToFtp => exact routineSignals_deltas hparts hwhole (by simp)

end Transfer

/-! ## The parts of a copy -/

section Copy

variable {check : Int → Int → Check} {env : FileEnv} (he : Succeeds env) {r : Routine}
  (hcheck : ∀ n : Nat, check n n = .goOn)

include he hcheck

theorem copyWrites_parts (pcnt : Bool → Int → Int → Int) (store : Int → Int) (fileSize : Int)
    {fuel k pos : Nat} {rest : Bytes} {writes : List Write} {how : CopyEnd} (hfuel : rest.length < fuel)
    (h : copyWrites check r.buf env fuel k rest pos = some (writes, how)) (tranLen : Int) :
    (∀ w ∈ writes, 0 < w.2.length ∧ w.2.length ≤ r.buf) ∧
    (writes.map fun w => w.2.length).sum = rest.length ∧
    (partsLoop pcnt store fileSize pos tranLen (writes.map fun w => w.2.length)).map Prod.fst =
      writes.map fun w => w.1 + w.2.length := by
  induction fuel generalizing k pos rest writes tranLen with
  | zero => cases h
  | succ fuel ih =>
    have hread := he.reads k
    have hwrite := he.writes k
    have hmax := Transfer.buf_le r
    have hpos : 0 < r.buf := by cases r <;> simp [Routine.buf]
    have hlen : (rest.take (min (env.reads k).toNat r.buf)).length ≤ r.buf := by
      rw [List.length_take]
      omega
    simp only [copyWrites] at h
    rw [Int.min_eq_right (by omega), hcheck, he.cancelDuring k, Int.toNat_natCast,
      List.take_length] at h
    split at h
    · next hnil =>
      obtain ⟨rfl, -⟩ := Prod.mk.inj (Option.some.inj h)
      have hrest : rest = [] := by
        rcases List.take_eq_nil_iff.mp hnil with hzero | hrest
        · omega
        · exact hrest
      simp [hrest, partsLoop]
    · next hne =>
      simp only [Bool.false_eq_true, if_false, Option.map_eq_some_iff, Prod.exists,
        Prod.mk.injEq] at h
      obtain ⟨later, _, hlater, rfl, rfl⟩ := h
      have hchunk := List.length_pos_iff.mpr hne
      have hsplit : (rest.take (min (env.reads k).toNat r.buf)).length +
          (rest.drop (min (env.reads k).toNat r.buf)).length = rest.length := by
        rw [← List.length_append, List.take_append_drop]
      obtain ⟨hparts, hsum, hends⟩ := ih (by omega) hlater _
      refine ⟨List.forall_mem_cons.mpr ⟨⟨hchunk, hlen⟩, hparts⟩, ?_, ?_⟩
      · rw [List.map_cons, List.sum_cons, hsum, hsplit]
      · rw [List.map_cons, partsLoop, List.map_cons, List.map_cons, hends]

theorem exists_transfer {fuel size : Nat} {rest : Bytes} {writes : List Write} {how : CopyEnd}
    (hfuel : rest.length < fuel) (hsize : r.offset + rest.length = size)
    (hlt : size < 0x8000000000000000)
    (h : copyWrites check r.buf env fuel 0 rest r.offset = some (writes, how)) :
    ∃ t : Transfer, t.routine = r ∧ t.size = size ∧ t.parts = writes.map fun w => w.2.length := by
  obtain ⟨hparts, hsum, -⟩ := copyWrites_parts he hcheck (fun _ _ _ => 0) int 0 hfuel h 0
  refine ⟨⟨r, size, writes.map fun w => w.2.length, hlt, ?_, ?_⟩, rfl, rfl, rfl⟩
  · intro c hc
    obtain ⟨w, hw, rfl⟩ := List.mem_map.mp hc
    exact hparts w hw
  · rw [hsum, hsize]

end Copy

/-! ## All the files -/

namespace ProgressDialog

theorem foldl_totalFilesSize (signals : List Emission) (d : ProgressDialog)
    (h : quint64 d.totalFilesSize = d.totalFilesSize) :
    ((signals.map Prod.snd).foldl receive d).totalFilesSize =
      quint64 (d.totalFilesSize + (sizes signals).sum) := by
  induction signals generalizing d with
  | nil => simp [h]
  | cons e signals ih =>
    obtain ⟨present, signal⟩ := e
    cases signal with
    | gotFileSize size =>
      rw [List.map_cons, List.foldl_cons, ih _ (quint64_quint64 _), sizes_size, List.sum_cons,
        ← Int.add_assoc]
      exact quint64_add_quint64 ..
    | percentChanged percent total delta => exact ih (d.slotSetTransferPercent percent total delta) h

theorem foldl_totalAbtainedSize (signals : List Emission) (d : ProgressDialog)
    (h : quint64 d.totalAbtainedSize = d.totalAbtainedSize) :
    ((signals.map Prod.snd).foldl receive d).totalAbtainedSize =
      quint64 (d.totalAbtainedSize + (deltas signals).sum) := by
  induction signals generalizing d with
  | nil => simp [h]
  | cons e signals ih =>
    obtain ⟨present, signal⟩ := e
    cases signal with
    | gotFileSize size => exact ih (d.slotTransferGotFileSize size) h
    | percentChanged percent total delta =>
      rw [List.map_cons, List.foldl_cons, ih _ (quint64_quint64 _), deltas_percent, List.sum_cons,
        ← Int.add_assoc]
      exact quint64_add_quint64 ..

end ProgressDialog

theorem sizes_append (es es' : List Emission) : sizes (es ++ es') = sizes es ++ sizes es' :=
  List.filterMap_append

theorem deltas_append (es es' : List Emission) : deltas (es ++ es') = deltas es ++ deltas es' :=
  List.filterMap_append

theorem sum_flatMap_signals {pcnt : Bool → Int → Int → Int} {f : List Emission → List Int} (hnil : f [] = [])
    (happend : ∀ es es', f (es ++ es') = f es ++ f es') {files : List Transfer}
    (h : ∀ t ∈ files, (f (t.signals pcnt)).sum = t.size) :
    (f (files.flatMap fun t => t.signals pcnt)).sum = ((files.map fun t => t.size).sum : Nat) := by
  induction files with
  | nil =>
    rw [List.flatMap_nil, hnil]
    rfl
  | cons t files ih =>
    rw [List.flatMap_cons, happend, List.sum_append, h t List.mem_cons_self,
      ih fun u hu => h u (List.mem_cons_of_mem t hu), List.map_cons, List.sum_cons, Int.natCast_add]

/-- **When the figures are exact**, those of every file and what the dialog adds up. -/
theorem figures_exact_iff (pcnt : Bool → Int → Int → Int) (totalTransfered : Int) (files : List Transfer) :
    ((∀ t ∈ files, t.Exact pcnt) ∧
      ((ProgressDialog.new totalTransfered).after pcnt files).totalFilesSize =
        ((files.map fun t => t.size).sum : Nat) ∧
      ((ProgressDialog.new totalTransfered).after pcnt files).totalAbtainedSize =
        ((files.map fun t => t.routine.offset + t.parts.sum).sum : Nat)) ↔
    (∀ t ∈ files, t.Fits) ∧ (files.map fun t => t.size).sum < 0x10000000000000000 := by
  have hfits : (∀ t ∈ files, t.Exact pcnt) ↔ ∀ t ∈ files, t.Fits :=
    forall₂_congr fun t _ => t.exact_iff
  have hwhole : (files.map fun t => t.routine.offset + t.parts.sum) = files.map fun t => t.size :=
    List.map_congr_left fun t _ => t.whole
  have hsignals : (files.flatMap fun t => (t.signals pcnt).map Prod.snd) =
      (files.flatMap fun t => t.signals pcnt).map Prod.snd := List.map_flatMap.symm
  rw [hwhole, hfits, ProgressDialog.after, hsignals, ProgressDialog.foldl_totalFilesSize _ _ rfl,
    ProgressDialog.foldl_totalAbtainedSize _ _ rfl]
  refine and_congr_right ?_
  intro h
  have hsizes : ∀ t ∈ files, (sizes (t.signals pcnt)).sum = t.size := by
    intro t ht
    rw [(hfits.mpr h t ht).1]
    simp
  rw [sum_flatMap_signals sizes_nil sizes_append hsizes,
    sum_flatMap_signals deltas_nil deltas_append fun t ht => t.deltas_sum (h t ht)]
  simp only [ProgressDialog.new, Int.zero_add, and_self]
  rw [quint64_eq_iff (by omega)]
  omega

-- Apart from `twoGiB`, so that the list is not unrolled when the sum is compared.
theorem sum_replicate_twoGiB : (List.replicate 0x40000 0x2000).sum = 0x80000000 := by
  rw [List.sum_replicate_nat]

/-- A download of 2 GiB. -/
def twoGiB : Transfer where
  routine := .sftpToFile none
  size := 0x80000000
  parts := List.replicate 0x40000 0x2000
  size_lt := by decide
  parts_pos := by
    intro c hc
    rw [List.eq_of_mem_replicate hc]
    decide
  whole := by
    rw [sum_replicate_twoGiB]
    rfl

/-- An upload of a file of which 2 GiB are there already. -/
def resumedTwoGiB : Transfer where
  routine := .fileToSftp (some 0x80000000)
  size := 0x80000000
  parts := []
  size_lt := by decide
  parts_pos := by simp
  whole := rfl

theorem twoGiB_figures : sizes (twoGiB.signals fun _ _ _ => 0) = [0xFFFFFFFF80000000] ∧
    ¬ twoGiB.Exact (fun _ _ _ => 0) ∧
    (0x80000000, .percentChanged 0 0xFFFFFFFF80000000 (-0x80000000)) ∈
      resumedTwoGiB.signals (fun _ _ _ => 0) ∧ ¬ resumedTwoGiB.Exact (fun _ _ _ => 0) := by
  -- A size or an offset of 2 GiB is emitted as a negative number.
  refine ⟨routineSignals_sizes.trans (by decide), ?_, by decide, ?_⟩
  · rw [Transfer.exact_iff]
    exact Nat.lt_irrefl _
  · rw [Transfer.exact_iff]
    exact Nat.lt_irrefl _

end NullFxp.Transportor
