import NullFxp.Forward.Worker
import Mathlib.Data.List.Basic

/-!
# What a forward relays

Bytes that a socket gives are handed to its channel, and bytes that a channel gives are written to
its socket.
-/

namespace NullFxp.Forward

/-! ## Traffic of one socket and one channel -/

def readOf (sock : Nat) (ts : List Traffic) : Bytes :=
  ts.flatMap fun
    | .fromSock s bytes => if s = sock then bytes else []
    | _ => []

def handedTo (chan : Nat) (ts : List Traffic) : Bytes :=
  ts.flatMap fun
    | .toChan c bytes => if c = chan then bytes else []
    | _ => []

def fetchedOf (chan : Nat) (ts : List Traffic) : Bytes :=
  ts.flatMap fun
    | .fromChan c bytes => if c = chan then bytes else []
    | _ => []

def writtenTo (sock : Nat) (ts : List Traffic) : Bytes :=
  ts.flatMap fun
    | .toSock s bytes => if s = sock then bytes else []
    | _ => []

section

variable (i : Nat) (ts us : List Traffic)

@[simp]
theorem readOf_append : readOf i (ts ++ us) = readOf i ts ++ readOf i us := List.flatMap_append

@[simp]
theorem handedTo_append : handedTo i (ts ++ us) = handedTo i ts ++ handedTo i us :=
  List.flatMap_append

@[simp]
theorem fetchedOf_append : fetchedOf i (ts ++ us) = fetchedOf i ts ++ fetchedOf i us :=
  List.flatMap_append

@[simp]
theorem writtenTo_append : writtenTo i (ts ++ us) = writtenTo i ts ++ writtenTo i us :=
  List.flatMap_append

end

/-- Everything read was handed on, in both directions. -/
def Same (f : Fwd) (ts : List Traffic) : Prop :=
  handedTo f.chan ts = readOf f.sock ts ∧ writtenTo f.sock ts = fetchedOf f.chan ts

/-- No byte is lost or repeated, and no memory is overwritten. -/
def Relays (w : Worker) : Prop := w.overrun = false ∧ ∀ f ∈ w.all, Same f w.trace

/-! ## Conditions -/

/-- One of the first 103 calls takes the whole, after `LIBSSH2_ERROR_EAGAIN` only. -/
def TakesWhole (chunk : Bytes) (writes : Nat → Int) : Prop :=
  chunk = [] ∨ ∃ k ≤ 102, (∀ j < k, writes j = errorEagain) ∧ (chunk.length : Int) ≤ writes k

/-- The channels found at their end in one poll. -/
def countEof (reads : Nat → ChanRead) : List Fwd → Nat
  | [] => 0
  | f :: fs =>
    match reads f.chan with
    | .data _ _ => countEof reads fs
    | .nothing eno eof =>
      if eno = errorEagain then eof.toNat + countEof reads fs
      else if eno = errorOutOfBoundary then eof.toNat
      else countEof reads fs

def RelayCond (w : Worker) : Event → Prop
  | .readyRead _ chunk writes => TakesWhole chunk writes
  | .poll p => countEof p.reads (accepted p w).mfwds ≤ 100
  | _ => True

/-! ## The writes to a channel -/

theorem taken_eq_iff (chunk : Bytes) (wlen : Int) :
    taken chunk wlen = chunk ↔ chunk = [] ∨ (chunk.length : Int) ≤ wlen := by
  unfold taken
  constructor
  · intro h
    by_cases hempty : chunk = []
    · exact .inl hempty
    · have hpos := List.length_pos_iff.mpr hempty
      have hlen := congrArg List.length h
      rw [List.length_take] at hlen
      right
      omega
  · rintro (rfl | h)
    · exact List.take_nil
    · exact List.take_of_length_le (by omega)

theorem retry_eq_iff (chunk : Bytes) (writes : Nat → Int) (n k : Nat) :
    retry chunk writes n k = chunk ↔ chunk = [] ∨
      ∃ i ≤ n, (∀ j < i, writes (k + j) = errorEagain) ∧ (chunk.length : Int) ≤ writes (k + i) := by
  induction n generalizing k with
  | zero =>
    rw [retry, taken_eq_iff]
    simp
  | succ n ih =>
    rw [retry]
    split
    · next hagain =>
      rw [ih]
      apply or_congr_right
      constructor
      · rintro ⟨i, hi, hbefore, hlast⟩
        refine ⟨i + 1, by omega, ?_, ?_⟩
        · intro j hj
          cases j with
          | zero => exact hagain
          | succ j =>
            have := hbefore j (by omega)
            rwa [show k + (j + 1) = k + 1 + j by omega]
        · rwa [show k + (i + 1) = k + 1 + i by omega]
      · rintro ⟨i, hi, hbefore, hlast⟩
        cases i with
        | zero =>
          rw [Nat.add_zero, hagain] at hlast
          unfold errorEagain at hlast
          omega
        | succ i =>
          refine ⟨i, by omega, fun j hj => ?_, ?_⟩
          · have := hbefore (j + 1) (by omega)
            rwa [show k + (j + 1) = k + 1 + j by omega] at this
          · rwa [show k + (i + 1) = k + 1 + i by omega] at hlast
    · next hother =>
      rw [taken_eq_iff]
      apply or_congr_right
      constructor
      · intro h
        exact ⟨0, by omega, by simp, h⟩
      · rintro ⟨i, hi, hbefore, hlast⟩
        cases i with
        | zero => exact hlast
        | succ i => exact absurd (hbefore 0 (by omega)) hother

theorem taken_neg {chunk : Bytes} {wlen : Int} (h : wlen < 0) : taken chunk wlen = [] := by
  rw [taken, Int.toNat_of_nonpos (by omega), List.take_zero]

theorem writeChannel_eq_retry (chunk : Bytes) (writes : Nat → Int) :
    writeChannel chunk writes = retry chunk writes 102 0 := by
  have hfirst : retry chunk writes 102 0 =
      if writes 0 = errorEagain then retry chunk writes 101 1 else taken chunk (writes 0) := rfl
  rw [hfirst]
  unfold writeChannel
  by_cases hagain : writes 0 = errorEagain
  · rw [if_pos (by rw [hagain]; decide), if_neg (by rw [hagain]; decide), if_pos hagain,
      if_pos hagain]
  · rw [if_neg hagain]
    split
    · next hneg =>
      rw [taken_neg hneg, ite_self]
    · rfl

/-- **A chunk is handed over whole** just when one of the calls takes it. -/
theorem writeChannel_eq_iff (chunk : Bytes) (writes : Nat → Int) :
    writeChannel chunk writes = chunk ↔ TakesWhole chunk writes := by
  rw [writeChannel_eq_retry, retry_eq_iff]
  simp only [Nat.zero_add]
  rfl

/-! ## The loop of a poll -/

theorem length_inv (reads : Nat → ChanRead) (fs : List Fwd) :
    (pollLoop reads fs).2.length = countEof reads fs := by
  induction fs with
  | nil => rfl
  | cons f fs ih =>
    unfold pollLoop countEof
    cases reads f.chan with
    | data b more => exact ih
    | nothing eno eof =>
      simp only
      split
      · rw [List.length_append, ih]
        cases eof <;> rfl
      · split
        · cases eof <;> rfl
        · exact ih

theorem mem_of_relayed {reads : Nat → ChanRead} {fs : List Fwd} {r : Fwd × Bytes}
    (h : r ∈ (pollLoop reads fs).1) : r.1 ∈ fs := by
  induction fs with
  | nil => cases h
  | cons f fs ih =>
    unfold pollLoop at h
    cases hread : reads f.chan with
    | data b more =>
      rw [hread] at h
      rcases List.mem_cons.mp h with rfl | h
      · exact List.mem_cons_self
      · exact List.mem_cons_of_mem _ (ih h)
    | nothing eno eof =>
      rw [hread] at h
      simp only at h
      split at h
      · exact List.mem_cons_of_mem _ (ih h)
      · split at h
        · cases h
        · exact List.mem_cons_of_mem _ (ih h)

/-! ## Forwards keep to themselves -/

def Traffic.Known (fs : List Fwd) : Traffic → Prop
  | .fromSock s _ | .toSock s _ => ∃ f ∈ fs, f.sock = s
  | .toChan c _ | .fromChan c _ => ∃ f ∈ fs, f.chan = c

/-- Socket and channel of a forward belong to no other forward. -/
structure Paired (w : Worker) : Prop where
  sub : ∀ f ∈ w.mfwds, f ∈ w.all
  paired : ∀ f ∈ w.all, ∀ g ∈ w.all, f.sock = g.sock ↔ f.chan = g.chan
  known : ∀ t ∈ w.trace, t.Known w.all

theorem Traffic.Known.mono {fs gs : List Fwd} (h : ∀ f ∈ fs, f ∈ gs) {t : Traffic}
    (ht : t.Known fs) : t.Known gs := by
  cases t with
  | fromSock s _ | toSock s _ | toChan s _ | fromChan s _ =>
    obtain ⟨f, hf, heq⟩ := ht
    exact ⟨f, h f hf, heq⟩

theorem same_of_fresh {w : Worker} (hw : Paired w) {f : Fwd} (hf : fresh w f = true) :
    Same f w.trace := by
  have hfresh : ∀ g ∈ w.all, g.sock ≠ f.sock ∧ g.chan ≠ f.chan := by
    simpa [fresh] using hf
  have hnone : ∀ ts : List Traffic, (∀ t ∈ ts, t.Known w.all) →
      handedTo f.chan ts = [] ∧ readOf f.sock ts = [] ∧ writtenTo f.sock ts = [] ∧
        fetchedOf f.chan ts = [] := by
    intro ts hts
    simp only [handedTo, readOf, writtenTo, fetchedOf, List.flatMap_eq_nil_iff]
    refine ⟨?_, ?_, ?_, ?_⟩
    all_goals
      intro t ht
      have hknown := hts t ht
      cases t with
      | fromSock s _ | toSock s _ | toChan s _ | fromChan s _ =>
        obtain ⟨g, hg, rfl⟩ := hknown
        simp [hfresh g hg]
  obtain ⟨hhanded, hread, hwritten, hfetched⟩ := hnone w.trace hw.known
  exact ⟨hhanded.trans hread.symm, hwritten.trans hfetched.symm⟩

theorem accepted_all (p : Poll) (w : Worker) : (accepted p w).all = w.all ++ p.accept.toList := by
  unfold accepted
  cases p.accept with
  | some f => rfl
  | none =>
    simp only [Option.toList_none, List.append_nil]
    split <;> rfl

theorem accepted_trace (p : Poll) (w : Worker) :
    (accepted p w).trace = w.trace ∧ (accepted p w).overrun = w.overrun := by
  unfold accepted
  cases p.accept with
  | some f => exact ⟨rfl, rfl⟩
  | none =>
    simp only
    split <;> exact ⟨rfl, rfl⟩

theorem accepted_paired {p : Poll} {w : Worker} (hw : Paired w)
    (hf : p.accept.all (fresh w) = true) : Paired (accepted p w) := by
  have hall := accepted_all p w
  have htrace := (accepted_trace p w).1
  cases haccept : p.accept with
  | none =>
    rw [haccept, Option.toList_none, List.append_nil] at hall
    refine ⟨?_, by rw [hall]; exact hw.paired, by rw [hall, htrace]; exact hw.known⟩
    rw [hall]
    unfold accepted
    rw [haccept]
    simp only
    split
    · intro f hf
      cases hf
    · exact hw.sub
  | some f =>
    rw [haccept, Option.toList_some] at hall
    rw [haccept] at hf
    have hfresh : ∀ g ∈ w.all, g.sock ≠ f.sock ∧ g.chan ≠ f.chan := by
      simpa [fresh] using hf
    refine ⟨?_, ?_, ?_⟩
    · rw [hall]
      unfold accepted
      rw [haccept]
      intro g hg
      rcases List.mem_append.mp hg with hg | hg
      · exact List.mem_append_left _ (hw.sub g hg)
      · exact List.mem_append_right _ hg
    · rw [hall]
      intro g hg h hh
      rcases List.mem_append.mp hg with hg | hg <;> rcases List.mem_append.mp hh with hh | hh
      · exact hw.paired g hg h hh
      · rw [List.mem_singleton.mp hh]
        exact iff_of_false (hfresh g hg).1 (hfresh g hg).2
      · rw [List.mem_singleton.mp hg]
        exact iff_of_false (Ne.symm (hfresh h hh).1) (Ne.symm (hfresh h hh).2)
      · rw [List.mem_singleton.mp hg, List.mem_singleton.mp hh]
        exact iff_of_true rfl rfl
    · rw [hall, htrace]
      intro t ht
      exact (hw.known t ht).mono fun g hg => List.mem_append_left _ hg

/-! ## One event -/

theorem removed_eq (chans : List Nat) (w : Worker) :
    ∃ fs, (∀ f ∈ fs, f ∈ w.mfwds) ∧
      chans.foldl removeForwardByChannel w = { w with mfwds := fs } := by
  induction chans generalizing w with
  | nil => exact ⟨w.mfwds, fun _ h => h, rfl⟩
  | cons c chans ih =>
    obtain ⟨fs, hfs, heq⟩ := ih (removeForwardByChannel w c)
    refine ⟨fs, fun f hf => ?_, heq⟩
    exact List.mem_of_mem_eraseP (hfs f hf)

theorem slotPollTimeout_eq (p : Poll) (w : Worker) :
    ∃ fs, (∀ f ∈ fs, f ∈ (accepted p w).mfwds) ∧
      slotPollTimeout p w = { accepted p w with
        mfwds := fs
        trace := w.trace ++ relayTrace (pollLoop p.reads (accepted p w).mfwds).1
        overrun := w.overrun || decide (100 < countEof p.reads (accepted p w).mfwds) } := by
  obtain ⟨htrace, hover⟩ := accepted_trace p w
  unfold slotPollTimeout
  simp only [length_inv]
  split
  · next h =>
    refine ⟨(accepted p w).mfwds, fun _ hf => hf, ?_⟩
    simp [Worker.log, htrace, h]
  · next h =>
    obtain ⟨fs, hfs, heq⟩ := removed_eq (pollLoop p.reads (accepted p w).mfwds).2
      ((accepted p w).log (relayTrace (pollLoop p.reads (accepted p w).mfwds).1))
    refine ⟨fs, hfs, ?_⟩
    rw [heq]
    simp [Worker.log, htrace, hover, h]

theorem step_cases {w w' : Worker} {e : Event} (h : step w e = some w') :
    w.overrun = false ∧
    ((∃ g ∈ w.mfwds, ∃ chunk writes, e = .readyRead g.sock chunk writes ∧
        w' = w.log [.fromSock g.sock chunk, .toChan g.chan (writeChannel chunk writes)]) ∨
      (∃ p, e = .poll p ∧ p.accept.all (fresh w) = true ∧ w' = slotPollTimeout p w) ∨
      (∃ fs, (∀ f ∈ fs, f ∈ w.mfwds) ∧ ((∃ sock, e = .disconnected sock) ∨ e = .setListener) ∧
        w' = { w with mfwds := fs })) := by
  unfold step at h
  split at h
  · cases h
  · next hover =>
    refine ⟨by simpa using hover, ?_⟩
    cases e with
    | readyRead sock chunk writes =>
      simp only [slotForwardDestSocketReadyRead, Option.map_eq_some_iff] at h
      obtain ⟨g, hg, rfl⟩ := h
      obtain rfl : g.sock = sock := by simpa using List.find?_some hg
      exact .inl ⟨g, List.mem_of_find?_eq_some hg, chunk, writes, rfl, rfl⟩
    | poll p =>
      simp only at h
      split at h
      · next hfresh => exact .inr (.inl ⟨p, rfl, hfresh, (Option.some.inj h).symm⟩)
      · cases h
    | disconnected sock =>
      refine .inr (.inr ⟨_, fun f hf => ?_, .inl ⟨sock, rfl⟩, (Option.some.inj h).symm⟩)
      exact List.mem_of_mem_eraseP hf
    | setListener =>
      refine .inr (.inr ⟨[], fun f hf => ?_, .inr rfl, (Option.some.inj h).symm⟩)
      cases hf

theorem Paired.step {w w' : Worker} {e : Event} (hw : Paired w) (h : step w e = some w') :
    Paired w' := by
  obtain ⟨-, ⟨g, hg, chunk, writes, -, rfl⟩ | ⟨p, -, hfresh, rfl⟩ | ⟨fs, hfs, -, rfl⟩⟩ := step_cases h
  · refine ⟨hw.sub, hw.paired, fun t ht => ?_⟩
    rcases List.mem_append.mp ht with ht | ht
    · exact hw.known t ht
    · rcases List.mem_pair.mp ht with rfl | rfl
      · exact ⟨g, hw.sub g hg, rfl⟩
      · exact ⟨g, hw.sub g hg, rfl⟩
  · have ha := accepted_paired hw hfresh
    obtain ⟨fs, hfs, heq⟩ := slotPollTimeout_eq p w
    rw [heq]
    refine ⟨fun f hf => ha.sub f (hfs f hf), ha.paired, fun t ht => ?_⟩
    rcases List.mem_append.mp ht with ht | ht
    · rw [← (accepted_trace p w).1] at ht
      exact ha.known t ht
    · obtain ⟨r, hr, ht⟩ := List.mem_flatMap.mp ht
      have hmem := ha.sub r.1 (mem_of_relayed hr)
      rcases List.mem_pair.mp ht with rfl | rfl
      · exact ⟨r.1, hmem, rfl⟩
      · exact ⟨r.1, hmem, rfl⟩
  · exact ⟨fun f hf => hw.sub f (hfs f hf), hw.paired, hw.known⟩

theorem same_relayTrace {all : List Fwd} (hp : ∀ f ∈ all, ∀ g ∈ all, f.sock = g.sock ↔ f.chan = g.chan)
    {relayed : List (Fwd × Bytes)} (hr : ∀ r ∈ relayed, r.1 ∈ all) {f : Fwd} (hf : f ∈ all) :
    Same f (relayTrace relayed) := by
  induction relayed with
  | nil => exact ⟨rfl, rfl⟩
  | cons r relayed ih =>
    rw [List.forall_mem_cons] at hr
    obtain ⟨hhanded, hwritten⟩ := ih hr.2
    have hiff := hp r.1 hr.1 f hf
    have hcons : relayTrace (r :: relayed) =
        [.fromChan r.1.chan r.2, .toSock r.1.sock r.2] ++ relayTrace relayed := rfl
    refine ⟨?_, ?_⟩
    · rw [hcons, handedTo_append, readOf_append, hhanded]
      rfl
    · rw [hcons, writtenTo_append, fetchedOf_append, hwritten]
      simp [writtenTo, fetchedOf, hiff]

theorem same_append_iff {f : Fwd} {ts us : List Traffic} (h : Same f ts) :
    Same f (ts ++ us) ↔ Same f us := by
  unfold Same at *
  rw [handedTo_append, readOf_append, writtenTo_append, fetchedOf_append, h.1, h.2,
    List.append_right_inj, List.append_right_inj]

/-- **An event keeps the relay exact** just when it meets the condition. -/
theorem relays_step_iff {w w' : Worker} {e : Event} (hw : Paired w) (hr : Relays w)
    (h : step w e = some w') : Relays w' ↔ RelayCond w e := by
  obtain ⟨hover, ⟨g, hg, chunk, writes, rfl, rfl⟩ | ⟨p, rfl, hfresh, rfl⟩ | ⟨fs, hfs, he, rfl⟩⟩ :=
    step_cases h
  · -- the chunk goes to the channel of the socket's forward only
    have hmem := hw.sub g hg
    change Relays _ ↔ TakesWhole chunk writes
    rw [← writeChannel_eq_iff]
    have hsame : ∀ f ∈ w.all, Same f (w.trace ++
        [.fromSock g.sock chunk, .toChan g.chan (writeChannel chunk writes)]) ↔
          (g.chan = f.chan → writeChannel chunk writes = chunk) := by
      intro f hf
      rw [same_append_iff (hr.2 f hf)]
      have hiff := hw.paired g hmem f hf
      by_cases hc : g.chan = f.chan <;> simp [Same, handedTo, readOf, writtenTo, fetchedOf, hiff, hc]
    constructor
    · intro hrelay
      exact (hsame g hmem).mp (hrelay.2 g hmem) rfl
    · intro hwhole
      exact ⟨hover, fun f hf => (hsame f hf).mpr fun _ => hwhole⟩
  · have ha := accepted_paired hw hfresh
    obtain ⟨fs, hfs, heq⟩ := slotPollTimeout_eq p w
    have hall : ∀ f ∈ (accepted p w).all,
        Same f (w.trace ++ relayTrace (pollLoop p.reads (accepted p w).mfwds).1) := by
      intro f hf
      have hold : Same f w.trace := by
        rw [accepted_all] at hf
        rcases List.mem_append.mp hf with hf | hf
        · exact hr.2 f hf
        · rw [Option.mem_toList] at hf
          rw [hf] at hfresh
          exact same_of_fresh hw hfresh
      rw [same_append_iff hold]
      exact same_relayTrace ha.paired (fun r hr => ha.sub r.1 (mem_of_relayed hr)) hf
    rw [heq]
    unfold Relays RelayCond
    simp only [hover, Bool.false_or, decide_eq_false_iff_not, Nat.not_lt]
    exact and_iff_left hall
  · have hcond : RelayCond w e := by
      rcases he with ⟨sock, rfl⟩ | rfl
      · trivial
      · trivial
    exact iff_of_true hr hcond

/-! ## Every run -/

theorem paired_start : Paired {} := ⟨by simp, by simp, by simp⟩

theorem relays_start : Relays {} := ⟨rfl, by simp⟩

/-- **Every byte is relayed once and in order** in just those runs in which every chunk is taken
whole, after at most 102 refusals, and no poll finds more than 100 channels at their end. -/
theorem relay_exact_iff (es : List Event) (w : Worker) (h : Runs.run step {} es = some w) :
    (∀ es' w', es' <+: es → Runs.run step {} es' = some w' → Relays w') ↔
      Runs.Meets step RelayCond {} es := by
  have hinv : ∀ w e w', Paired w → step w e = some w' → Paired w' := fun _ _ _ hw h => hw.step h
  have hgood : ∀ w e w', Paired w → Relays w → step w e = some w' → (Relays w' ↔ RelayCond w e) :=
    fun _ _ _ hw hr h => relays_step_iff hw hr h
  exact (Runs.meets_iff hinv hgood paired_start relays_start h).symm

/-- A forward is accepted, and nothing comes from its channel. -/
def acceptOne : Event := .poll ⟨some ⟨0, 0⟩, 0, false, fun _ => .nothing errorEagain false⟩

/-- The channel refuses a chunk twice and then takes it. -/
def refusedTwice : Event := .readyRead 0 [1, 2] fun k => if k < 2 then errorEagain else 2

theorem relay_exact_refused :
    ∃ w, Runs.run step {} [acceptOne, refusedTwice] = some w ∧ handedTo 0 w.trace = [1, 2] ∧
      Relays w := by
  refine ⟨_, rfl, by decide, ?_⟩
  refine (relay_exact_iff [acceptOne, refusedTwice] _ rfl).mpr ?_ _ _ List.prefix_rfl rfl
  refine ⟨Nat.zero_le _, fun w hw => ⟨.inr ⟨2, by decide, ?_, by decide⟩, fun _ _ => trivial⟩⟩
  intro j hj
  simp [hj]

theorem partial_write_lost :
    ∃ w, Runs.run step {} [acceptOne, .readyRead 0 [1, 2] fun _ => 1] = some w ∧
      readOf 0 w.trace = [1, 2] ∧ handedTo 0 w.trace = [1] ∧ ¬ Relays w := by
  -- A chunk of two bytes of which the channel takes one: the other is lost.
  refine ⟨_, rfl, by decide, by decide, ?_⟩
  rintro ⟨-, h⟩
  have hsame := (h ⟨0, 0⟩ (by decide)).1
  exact absurd hsame (by decide)

end NullFxp.Forward
