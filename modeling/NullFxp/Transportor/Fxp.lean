import NullFxp.Lib.Runs
import NullFxp.LibFtp.Codes

/-!
# Transfers between two FTP servers

`run_FTP_to_FTP_fxp` sends `PORT`, `STOR` and `RETR` without waiting, and then reads a fixed number
of replies on the two control connections. The commands before these read their own replies. A wait
ends with data that is new, so a reply that a socket took in before the wait does not end it.
-/

open Runs NullFxp.LibFtp

namespace NullFxp.Transportor.Fxp

/-! ## The servers -/

/-- What the servers answer. A transfer that is aborted is completed with another code. -/
structure Outcome where
  port : Reply
  stor : Reply
  storDone : Reply
  retr : Reply
  retrDone : Reply

/-- A preliminary reply: the command was accepted, and one more reply follows. -/
def IsPreliminary (R : Reply) : Prop := R.code < 200

instance (R : Reply) : Decidable (IsPreliminary R) := inferInstanceAs (Decidable (_ < _))

inductive Side where
  | src | dst
  deriving DecidableEq

namespace Outcome

variable (o : Outcome)

def storReplies : List Reply := if IsPreliminary o.stor then [o.stor, o.storDone] else [o.stor]

def retrReplies : List Reply := if IsPreliminary o.retr then [o.retr, o.retrDone] else [o.retr]

def replies : Side → List Reply
  | .src => o.port :: o.retrReplies
  | .dst => o.storReplies

end Outcome

def bytesOf (Rs : List Reply) : Bytes := Rs.flatMap Reply.bytes

/-! ## The client -/

/-- One control connection: the replies that its socket has not taken in, the bytes of those that
it has, and the bytes that were read. -/
structure Chan where
  due : List Reply
  unread : Bytes
  consumed : Bytes

def Chan.send (ch : Chan) (replies : List Reply) : Chan := { ch with due := ch.due ++ replies }

inductive Pc where
  | portNoWait | putNoWait | getNoWait
  | swallowPort | swallowPut | swallowGet
  | waitSrc | waitDst
  | returned
  /-- a failed assert, or an index out of range in `readAll` -/
  | aborted
  deriving DecidableEq

namespace Pc

def waitsOn : Pc → Option Side
  | swallowPort => some .src
  | swallowPut => some .dst
  | swallowGet => some .src
  | waitSrc => some .src
  | waitDst => some .dst
  | _ => none

/-- `swallowResponse`, and not `waitForCtrlResponse` -/
def Swallows (pc : Pc) : Prop := pc = swallowPort ∨ pc = swallowPut ∨ pc = swallowGet

instance (pc : Pc) : Decidable pc.Swallows := inferInstanceAs (Decidable (_ ∨ _ ∨ _))

def next : Pc → Pc
  | portNoWait => putNoWait
  | putNoWait => getNoWait
  | getNoWait => swallowPort
  | swallowPort => swallowPut
  | swallowPut => swallowGet
  | swallowGet => waitSrc
  | waitSrc => waitDst
  | waitDst => returned
  | returned => returned
  | aborted => aborted

end Pc

structure State where
  src : Chan
  dst : Chan
  pc : Pc

namespace State

def chan (s : State) : Side → Chan
  | .src => s.src
  | .dst => s.dst

def update (s : State) (c : Side) (ch : Chan) (pc : Pc) : State :=
  match c with
  | .src => ⟨ch, s.dst, pc⟩
  | .dst => ⟨s.src, ch, pc⟩

@[simp]
theorem update_pc (s : State) (c : Side) (ch : Chan) (pc : Pc) : (s.update c ch pc).pc = pc := by
  cases c <;> rfl

@[simp]
theorem chan_update_self (s : State) (c : Side) (ch : Chan) (pc : Pc) :
    (s.update c ch pc).chan c = ch := by
  cases c <;> rfl

theorem chan_update_of_ne (s : State) {c d : Side} (h : d ≠ c) (ch : Chan) (pc : Pc) :
    (s.update c ch pc).chan d = s.chan d := by
  cases c <;> cases d <;> first | rfl | exact absurd rfl h

end State

def arrivalOf : Bytes → Arrival
  | [] => .timeout
  | b :: bs => .data b bs

/-- `swallowResponse`, whose result is not looked at -/
def swallow (s : State) (c : Side) (ch : Chan) (arrivals : List Arrival) : State :=
  match readAll ⟨ch.unread, arrivals⟩ with
  | none => s.update c ch .aborted
  | some (ball, sock) =>
    s.update c { ch with unread := sock.unread, consumed := ch.consumed ++ ball } s.pc.next

/-- `waitForCtrlResponse` takes everything that is there. -/
def waitForCtrlResponse (s : State) (c : Side) (ch : Chan) (bs : Bytes) : State :=
  s.update c { ch with unread := [], consumed := ch.consumed ++ (ch.unread ++ bs) } s.pc.next

inductive Action where
  /-- The client writes its next command. -/
  | write
  /-- The socket of a connection takes in the next `n` replies at once. -/
  | arrive (c : Side) (n : Nat)
  /-- `readAll` gives up. -/
  | giveUp
  deriving DecidableEq

/-- After the `SIZE` of the source. -/
def start : State := ⟨⟨[], [], []⟩, ⟨[], [], []⟩, .portNoWait⟩

def step (o : Outcome) (s : State) : Action → Option State
  | .write =>
    match s.pc with
    | .portNoWait =>
      some (if s.src.unread = [] then s.update .src (s.src.send [o.port]) .putNoWait
        else s.update .src s.src .aborted)
    | .putNoWait =>
      -- `putNoWaitResponse` does not look at `bytesAvailable()`
      some (s.update .dst (s.dst.send o.storReplies) .getNoWait)
    | .getNoWait =>
      some (if s.src.unread = [] then s.update .src (s.src.send o.retrReplies) .swallowPort
        else s.update .src s.src .aborted)
    | _ => none
  | .arrive c n =>
    let bs := bytesOf ((s.chan c).due.take n)
    let ch := { s.chan c with due := (s.chan c).due.drop n }
    if 0 < n ∧ n ≤ (s.chan c).due.length then
      some (if s.pc.waitsOn = some c then
          if s.pc.Swallows then swallow s c ch [arrivalOf bs] else waitForCtrlResponse s c ch bs
        else s.update c { ch with unread := ch.unread ++ bs } s.pc)
    else none
  | .giveUp =>
    if s.pc.Swallows then
      s.pc.waitsOn.map fun c => swallow s c (s.chan c) (List.replicate 5 .timeout)
    else none

/-! ## Both connections in step -/

namespace Outcome

variable (o : Outcome)

def Accepted : Prop := IsPreliminary o.stor ∧ IsPreliminary o.retr

def Readable : Prop := ∀ R ∈ [o.port, o.stor, o.retr], R.Readable

end Outcome

/-- A reply comes alone while the client waits on its connection, and before `readAll` gives up. -/
def InTime (s : State) : Action → Prop
  | .write => True
  | .arrive c n => s.pc.waitsOn = some c ∧ n = 1
  | .giveUp => False

/-- No assert has failed, a wait is for a reply that comes, and at the end every reply was read. -/
structure Right (o : Outcome) (s : State) : Prop where
  not_aborted : s.pc ≠ .aborted
  due : ∀ c, s.pc.waitsOn = some c → (s.chan c).due ≠ []
  consumed : s.pc = .returned → ∀ c, (s.chan c).consumed = bytesOf (o.replies c)

/-- The state at each place of a run in which every reply ends its own wait. -/
def inStep (o : Outcome) : Pc → State
  | .portNoWait => start
  | .putNoWait => ⟨⟨[o.port], [], []⟩, ⟨[], [], []⟩, .putNoWait⟩
  | .getNoWait => ⟨⟨[o.port], [], []⟩, ⟨[o.stor, o.storDone], [], []⟩, .getNoWait⟩
  | .swallowPort =>
    ⟨⟨[o.port, o.retr, o.retrDone], [], []⟩, ⟨[o.stor, o.storDone], [], []⟩, .swallowPort⟩
  | .swallowPut =>
    ⟨⟨[o.retr, o.retrDone], [], bytesOf [o.port]⟩, ⟨[o.stor, o.storDone], [], []⟩, .swallowPut⟩
  | .swallowGet =>
    ⟨⟨[o.retr, o.retrDone], [], bytesOf [o.port]⟩, ⟨[o.storDone], [], bytesOf [o.stor]⟩,
      .swallowGet⟩
  | .waitSrc =>
    ⟨⟨[o.retrDone], [], bytesOf [o.port, o.retr]⟩, ⟨[o.storDone], [], bytesOf [o.stor]⟩, .waitSrc⟩
  | .waitDst =>
    ⟨⟨[], [], bytesOf [o.port, o.retr, o.retrDone]⟩, ⟨[o.storDone], [], bytesOf [o.stor]⟩,
      .waitDst⟩
  | .returned =>
    ⟨⟨[], [], bytesOf [o.port, o.retr, o.retrDone]⟩, ⟨[], [], bytesOf [o.stor, o.storDone]⟩,
      .returned⟩
  | .aborted => ⟨⟨[], [], []⟩, ⟨[], [], []⟩, .aborted⟩

section

variable {o : Outcome} {s s' : State} {a : Action}

theorem Outcome.Accepted.storReplies_eq (h : o.Accepted) : o.storReplies = [o.stor, o.storDone] :=
  if_pos h.1

theorem Outcome.Accepted.retrReplies_eq (h : o.Accepted) : o.retrReplies = [o.retr, o.retrDone] :=
  if_pos h.2

theorem readAll_arrivalOf {R : Reply} (hR : R.Readable) {u bs rest : Bytes} (hbs : bs ≠ [])
    (h : u ++ bs = R.bytes ++ rest) :
    readAll ⟨u, [arrivalOf bs]⟩ = some (R.bytes, ⟨rest, []⟩) := by
  obtain ⟨b, more, rfl⟩ := List.exists_cons_of_ne_nil hbs
  rw [readAll, arrivalOf, readAllByEndSymbol, h, R.feed_readable hR]
  simp [Text.toAscii_map_latin1]

theorem step_wait {c : Side} {R : Reply} {due : List Reply} {consumed : Bytes}
    (hch : s.chan c = ⟨R :: due, [], consumed⟩) (hw : s.pc.waitsOn = some c)
    (hR : s.pc.Swallows → R.Readable) :
    step o s (.arrive c 1) = some (s.update c ⟨due, [], consumed ++ R.bytes⟩ s.pc.next) := by
  by_cases hsw : s.pc.Swallows
  · have hread : readAll ⟨[], [arrivalOf (bytesOf [R])]⟩ = some (R.bytes, ⟨[], []⟩) :=
      readAll_arrivalOf (hR hsw) (by simp [bytesOf, R.bytes_ne_nil]) (by simp [bytesOf])
    simp [step, hch, hw, hsw, swallow, hread]
  · simp [step, hch, hw, hsw, waitForCtrlResponse, bytesOf]

theorem inStep_pc (o : Outcome) (pc : Pc) : (inStep o pc).pc = pc := by
  cases pc <;> rfl

theorem write_inStep (h : o.Accepted) {pc : Pc} (hs : step o (inStep o pc) .write = some s') :
    s' = inStep o pc.next := by
  cases pc with
  | portNoWait =>
    obtain rfl := Option.some.inj hs
    rfl
  | putNoWait =>
    obtain rfl := Option.some.inj hs
    simp [inStep, State.update, Chan.send, Pc.next, h.storReplies_eq]
  | getNoWait =>
    obtain rfl := Option.some.inj hs
    simp [inStep, State.update, Chan.send, Pc.next, h.retrReplies_eq]
  | _ => cases hs

theorem arrive_inStep (hr : o.Readable) {pc : Pc} {c : Side} (hw : pc.waitsOn = some c) :
    step o (inStep o pc) (.arrive c 1) = some (inStep o pc.next) := by
  cases pc with
  | swallowPort =>
    obtain rfl : Side.src = c := Option.some.inj hw
    rw [step_wait rfl rfl fun _ => hr _ (by simp)]
    simp [inStep, State.update, Pc.next, bytesOf]
  | swallowPut =>
    obtain rfl : Side.dst = c := Option.some.inj hw
    rw [step_wait rfl rfl fun _ => hr _ (by simp)]
    simp [inStep, State.update, Pc.next, bytesOf]
  | swallowGet =>
    obtain rfl : Side.src = c := Option.some.inj hw
    rw [step_wait rfl rfl fun _ => hr _ (by simp)]
    simp [inStep, State.update, Pc.next, bytesOf]
  | waitSrc =>
    obtain rfl : Side.src = c := Option.some.inj hw
    rw [step_wait rfl rfl fun h => absurd (show Pc.waitSrc.Swallows from h) (by decide)]
    simp [inStep, State.update, Pc.next, bytesOf]
  | waitDst =>
    obtain rfl : Side.dst = c := Option.some.inj hw
    rw [step_wait rfl rfl fun h => absurd (show Pc.waitDst.Swallows from h) (by decide)]
    simp [inStep, State.update, Pc.next, bytesOf]
  | _ => cases hw

theorem next_ne_aborted {pc : Pc} (h : pc ≠ .aborted) : pc.next ≠ .aborted := by
  cases pc with
  | aborted => exact absurd rfl h
  | _ => decide

theorem step_inStep (hr : o.Readable) (h : o.Accepted) {pc : Pc}
    (ht : InTime (inStep o pc) a) (hs : step o (inStep o pc) a = some s') :
    s' = inStep o pc.next := by
  cases a with
  | write => exact write_inStep h hs
  | arrive c n =>
    obtain ⟨hw, rfl⟩ := ht
    rw [inStep_pc] at hw
    rw [arrive_inStep hr hw] at hs
    exact (Option.some.inj hs).symm
  | giveUp => exact ht.elim

theorem right_inStep (h : o.Accepted) {pc : Pc} (hpc : pc ≠ .aborted) : Right o (inStep o pc) := by
  refine ⟨?_, ?_, ?_⟩
  · rwa [inStep_pc]
  · intro c hc
    cases pc with
    | swallowPort => obtain rfl : Side.src = c := Option.some.inj hc; simp [inStep, State.chan]
    | swallowPut => obtain rfl : Side.dst = c := Option.some.inj hc; simp [inStep, State.chan]
    | swallowGet => obtain rfl : Side.src = c := Option.some.inj hc; simp [inStep, State.chan]
    | waitSrc => obtain rfl : Side.src = c := Option.some.inj hc; simp [inStep, State.chan]
    | waitDst => obtain rfl : Side.dst = c := Option.some.inj hc; simp [inStep, State.chan]
    | _ => cases hc
  · intro hret c
    obtain rfl : pc = .returned := by rwa [inStep_pc] at hret
    cases c with
    | src => rw [Outcome.replies, h.retrReplies_eq]; rfl
    | dst => rw [Outcome.replies, h.storReplies_eq]; rfl

end

/-! ## Counting waits and replies -/

/-- The waits on a connection that are still to end. -/
def Pc.waitsLeft : Pc → Side → Int
  | .swallowPut, .src => 2
  | .swallowGet, .src => 2
  | .swallowGet, .dst => 1
  | .waitSrc, .src => 1
  | .waitSrc, .dst => 1
  | .waitDst, .src => 0
  | .waitDst, .dst => 1
  | .returned, _ => 0
  | _, .src => 3
  | _, .dst => 2

def Outcome.coming (o : Outcome) : Pc → Side → Int
  | .portNoWait, .src => 1 + o.retrReplies.length
  | .putNoWait, .src => o.retrReplies.length
  | .getNoWait, .src => o.retrReplies.length
  | .portNoWait, .dst => o.storReplies.length
  | .putNoWait, .dst => o.storReplies.length
  | _, _ => 0

/-- How many waits will be left when no reply is to come any more. -/
def slack (o : Outcome) (s : State) (c : Side) : Int :=
  s.pc.waitsLeft c - ((s.chan c).due.length + o.coming s.pc c)

section

variable {o : Outcome} {s s' : State} {a : Action}

theorem write_slack (hs : step o s .write = some s') (c : Side) : slack o s c ≤ slack o s' c := by
  obtain ⟨src, dst, pc⟩ := s
  cases pc with
  | portNoWait =>
    obtain rfl := Option.some.inj hs
    dsimp only
    split <;> cases c <;>
      simp [slack, Pc.waitsLeft, Outcome.coming, State.chan, State.update, Chan.send] <;> omega
  | putNoWait =>
    obtain rfl := Option.some.inj hs
    cases c <;> simp [slack, Pc.waitsLeft, Outcome.coming, State.chan, State.update, Chan.send]
  | getNoWait =>
    obtain rfl := Option.some.inj hs
    dsimp only
    split
    · cases c <;> simp [slack, Pc.waitsLeft, Outcome.coming, State.chan, State.update, Chan.send]
    · cases c
      · simp [slack, Pc.waitsLeft, Outcome.coming, State.chan, State.update]
        omega
      · simp [slack, Pc.waitsLeft, Outcome.coming, State.chan, State.update]
  | _ => cases hs

theorem waitsLeft_next {pc : Pc} {c : Side} (h : pc.waitsOn = some c) :
    pc.next.waitsLeft c = pc.waitsLeft c - 1 ∧
      (∀ d ≠ c, pc.next.waitsLeft d = pc.waitsLeft d) ∧ ∀ d, o.coming pc.next d = 0 := by
  cases pc with
  | swallowPort =>
    obtain rfl : Side.src = c := Option.some.inj h
    refine ⟨rfl, ?_, ?_⟩ <;> intro d <;> cases d <;> simp [Pc.waitsLeft, Pc.next, Outcome.coming]
  | swallowPut =>
    obtain rfl : Side.dst = c := Option.some.inj h
    refine ⟨rfl, ?_, ?_⟩ <;> intro d <;> cases d <;> simp [Pc.waitsLeft, Pc.next, Outcome.coming]
  | swallowGet =>
    obtain rfl : Side.src = c := Option.some.inj h
    refine ⟨rfl, ?_, ?_⟩ <;> intro d <;> cases d <;> simp [Pc.waitsLeft, Pc.next, Outcome.coming]
  | waitSrc =>
    obtain rfl : Side.src = c := Option.some.inj h
    refine ⟨rfl, ?_, ?_⟩ <;> intro d <;> cases d <;> simp [Pc.waitsLeft, Pc.next, Outcome.coming]
  | waitDst =>
    obtain rfl : Side.dst = c := Option.some.inj h
    refine ⟨rfl, ?_, ?_⟩ <;> intro d <;> cases d <;> simp [Pc.waitsLeft, Pc.next, Outcome.coming]
  | _ => cases h

theorem waitsLeft_aborted (pc : Pc) (c : Side) : pc.waitsLeft c ≤ Pc.aborted.waitsLeft c := by
  cases pc <;> cases c <;> decide

theorem coming_nonneg (pc : Pc) (c : Side) : 0 ≤ o.coming pc c := by
  unfold Outcome.coming
  split <;> omega

theorem slack_update_self (c : Side) (ch : Chan) (pc : Pc) :
    slack o (s.update c ch pc) c = pc.waitsLeft c - (ch.due.length + o.coming pc c) := by
  rw [slack, State.chan_update_self, State.update_pc]

theorem slack_update_of_ne {c d : Side} (h : d ≠ c) (ch : Chan) (pc : Pc) :
    slack o (s.update c ch pc) d =
      pc.waitsLeft d - ((s.chan d).due.length + o.coming pc d) := by
  rw [slack, State.chan_update_of_ne s h, State.update_pc]

theorem update_slack {c : Side} (ch : Chan) {pc : Pc} (hw : s.pc.waitsOn = some c)
    (hpc : pc = s.pc.next ∨ pc = .aborted) :
    s.pc.waitsLeft c - 1 - ch.due.length ≤ slack o (s.update c ch pc) c ∧
      ∀ d ≠ c, slack o s d ≤ slack o (s.update c ch pc) d := by
  obtain ⟨hself, hother, hcoming⟩ := waitsLeft_next (o := o) hw
  rw [slack_update_self]
  rcases hpc with rfl | rfl
  · refine ⟨by rw [hself, hcoming]; omega, fun d hd => ?_⟩
    have := coming_nonneg (o := o) s.pc d
    rw [slack_update_of_ne hd, hother d hd, hcoming, slack]
    omega
  · have hzero : ∀ d, o.coming .aborted d = 0 := by intro d; cases d <;> rfl
    refine ⟨by have := waitsLeft_aborted s.pc c; rw [hzero]; omega, fun d hd => ?_⟩
    have hle := waitsLeft_aborted s.pc d
    have := coming_nonneg (o := o) s.pc d
    rw [slack_update_of_ne hd, hzero, slack]
    omega

theorem arrive_slack {c : Side} {n : Nat} (hs : step o s (.arrive c n) = some s') :
    (∀ d, slack o s d ≤ slack o s' d) ∧
      (¬ InTime s (.arrive c n) → slack o s c < slack o s' c) := by
  simp only [step, Option.ite_none_right_eq_some, Option.some.injEq] at hs
  obtain ⟨⟨hpos, hle⟩, rfl⟩ := hs
  have hlen : ((s.chan c).due.drop n).length + n = (s.chan c).due.length := by
    rw [List.length_drop]; omega
  have hnonneg := coming_nonneg (o := o) s.pc c
  by_cases hw : s.pc.waitsOn = some c
  · rw [if_pos hw]
    -- the wait ends, or `readAll` fails
    obtain ⟨ch, pc, hdue, hpc, heq⟩ : ∃ ch pc, ch.due = (s.chan c).due.drop n ∧
        (pc = s.pc.next ∨ pc = .aborted) ∧
        (if s.pc.Swallows then
          swallow s c { s.chan c with due := (s.chan c).due.drop n }
            [arrivalOf (bytesOf ((s.chan c).due.take n))]
        else waitForCtrlResponse s c { s.chan c with due := (s.chan c).due.drop n }
            (bytesOf ((s.chan c).due.take n))) = s.update c ch pc := by
      split
      · unfold swallow
        split
        · exact ⟨_, _, rfl, Or.inr rfl, rfl⟩
        · exact ⟨_, _, rfl, Or.inl rfl, rfl⟩
      · exact ⟨_, _, rfl, Or.inl rfl, rfl⟩
    rw [heq]
    obtain ⟨hself, hother⟩ := update_slack (o := o) ch hw hpc
    rw [hdue] at hself
    have hslack : slack o s c ≤ s.pc.waitsLeft c - (s.chan c).due.length := by
      rw [slack]; omega
    refine ⟨fun d => ?_, fun hlate => ?_⟩
    · by_cases hd : d = c
      · subst hd; omega
      · exact hother d hd
    · have : n ≠ 1 := fun h => hlate ⟨hw, h⟩
      omega
  · rw [if_neg hw]
    refine ⟨fun d => ?_, fun _ => ?_⟩
    · by_cases hd : d = c
      · subst hd; rw [slack_update_self, slack]; simp only; omega
      · exact Int.le_of_eq (slack_update_of_ne hd _ _).symm
    · rw [slack_update_self, slack]; simp only; omega

theorem run_slack {as : List Action} (hg : .giveUp ∉ as) (hr : run (step o) s as = some s') :
    (∀ c, slack o s c ≤ slack o s' c) ∧
      ((∀ c, slack o s' c ≤ slack o s c) → Meets (step o) InTime s as) := by
  induction as generalizing s with
  | nil =>
    obtain rfl : s = s' := by simpa [run] using hr
    exact ⟨fun c => Int.le_refl _, fun _ => trivial⟩
  | cons a as ih =>
    simp only [List.mem_cons, not_or] at hg
    obtain ⟨t, ht, hr⟩ := run_cons.mp hr
    obtain ⟨hmono, hmeets⟩ := ih hg.2 hr
    have hstep : (∀ c, slack o s c ≤ slack o t c) ∧
        (¬ InTime s a → ∃ c, slack o s c < slack o t c) := by
      cases a with
      | write => exact ⟨write_slack ht, fun h => absurd trivial h⟩
      | arrive c n => exact ⟨(arrive_slack ht).1, fun h => ⟨c, (arrive_slack ht).2 h⟩⟩
      | giveUp => exact absurd rfl hg.1
    refine ⟨fun c => Int.le_trans (hstep.1 c) (hmono c), fun hle => ⟨?_, fun u hu => ?_⟩⟩
    · by_contra hlate
      obtain ⟨c, hc⟩ := hstep.2 hlate
      have := hmono c
      have := hle c
      omega
    · obtain rfl : t = u := by simpa [ht] using hu
      exact hmeets fun c => Int.le_trans (hle c) (hstep.1 c)

theorem slack_returned (h : s.pc = .returned) (c : Side) : slack o s c ≤ 0 := by
  rw [slack, h]
  cases c <;> simp [Pc.waitsLeft, Outcome.coming]

theorem length_retrReplies (o : Outcome) :
    o.retrReplies.length ≤ 2 ∧ (o.retrReplies.length = 2 → IsPreliminary o.retr) := by
  unfold Outcome.retrReplies
  split <;> simp_all

theorem length_storReplies (o : Outcome) :
    o.storReplies.length ≤ 2 ∧ (o.storReplies.length = 2 → IsPreliminary o.stor) := by
  unfold Outcome.storReplies
  split <;> simp_all

theorem slack_start (o : Outcome) :
    (∀ c, 0 ≤ slack o start c) ∧ ((∀ c, slack o start c ≤ 0) → o.Accepted) := by
  obtain ⟨hr, hretr⟩ := length_retrReplies o
  obtain ⟨hs, hstor⟩ := length_storReplies o
  have hsrc : slack o start .src = 3 - (0 + (1 + o.retrReplies.length)) := rfl
  have hdst : slack o start .dst = 2 - (0 + o.storReplies.length) := rfl
  constructor
  · intro c
    cases c <;> omega
  · intro h
    have := h .src
    have := h .dst
    exact ⟨hstor (by omega), hretr (by omega)⟩

theorem right_of_inTime {as : List Action} (hr : o.Readable) (h : o.Accepted)
    (hrun : run (step o) start as = some s) (ht : Meets (step o) InTime start as) :
    Right o s := by
  obtain ⟨pc, hpc, rfl⟩ := run_invariant_of_meets (fun s => ∃ pc, pc ≠ .aborted ∧ s = inStep o pc)
    (by rintro _ a s' ⟨pc, hpc, rfl⟩ ht hs
        exact ⟨pc.next, next_ne_aborted hpc, step_inStep hr h ht hs⟩)
    ⟨.portNoWait, by decide, rfl⟩ ht hrun
  exact right_inStep h hpc

theorem inTime_of_returned {as : List Action} (hrun : run (step o) start as = some s)
    (hg : .giveUp ∉ as) (hret : s.pc = .returned) :
    o.Accepted ∧ Meets (step o) InTime start as := by
  obtain ⟨hmono, hmeets⟩ := run_slack hg hrun
  obtain ⟨hnonneg, haccepted⟩ := slack_start o
  refine ⟨haccepted fun c => ?_, hmeets fun c => ?_⟩
  · exact Int.le_trans (hmono c) (slack_returned hret c)
  · exact Int.le_trans (slack_returned hret c) (hnonneg c)

end

def inTimeRun : List Action :=
  [.write, .write, .write, .arrive .src 1, .arrive .dst 1, .arrive .src 1, .arrive .src 1,
    .arrive .dst 1]

theorem run_inTimeRun {o : Outcome} (hr : o.Readable) (h : o.Accepted) :
    run (step o) start inTimeRun = some (inStep o .returned) := by
  have hport : step o start .write = some (inStep o .putNoWait) := rfl
  have hput : step o (inStep o .putNoWait) .write = some (inStep o .getNoWait) := by
    have hs : step o (inStep o .putNoWait) .write = some _ := rfl
    exact congrArg some (write_inStep h hs)
  have hget : step o (inStep o .getNoWait) .write = some (inStep o .swallowPort) := by
    have hs : step o (inStep o .getNoWait) .write = some _ := rfl
    exact congrArg some (write_inStep h hs)
  refine run_cons.mpr ⟨_, hport, run_cons.mpr ⟨_, hput, run_cons.mpr ⟨_, hget, ?_⟩⟩⟩
  refine run_cons.mpr ⟨_, arrive_inStep hr rfl, run_cons.mpr ⟨_, arrive_inStep hr rfl, ?_⟩⟩
  refine run_cons.mpr ⟨_, arrive_inStep hr rfl, run_cons.mpr ⟨_, arrive_inStep hr rfl, ?_⟩⟩
  exact run_cons.mpr ⟨_, arrive_inStep hr rfl, rfl⟩

/-- **The connections are in step** when both transfer commands are accepted and each reply comes
alone in its own wait. A run that returns without a timeout is such a run. -/
theorem fxp_in_step (o : Outcome) :
    (o.Readable → o.Accepted → ∀ as s, run (step o) start as = some s →
      Meets (step o) InTime start as → Right o s) ∧
    ∀ as s, run (step o) start as = some s → .giveUp ∉ as → s.pc = .returned →
      o.Accepted ∧ Meets (step o) InTime start as :=
  ⟨fun hr h _ _ hrun ht => right_of_inTime hr h hrun ht,
    fun _ _ hrun hg hret => inTime_of_returned hrun hg hret⟩

def answered (retr : Reply) : Outcome where
  port := .short 200 (by decide)
  stor := .short 150 (by decide)
  storDone := .short 226 (by decide)
  retr := retr
  retrDone := .short 226 (by decide)

theorem readable_answered {retr : Reply} (h : retr.Readable) : (answered retr).Readable := by
  intro R hR
  simp only [List.mem_cons, List.not_mem_nil, or_false] at hR
  rcases hR with rfl | rfl | rfl
  · exact Reply.readable_short _ _
  · exact Reply.readable_short _ _
  · exact h

theorem fxp_in_step_accepted : ∃ o : Outcome, o = answered (.short 150 (by decide)) ∧
    ∃ s, run (step o) start inTimeRun = some s ∧ s.pc = .returned ∧
      Meets (step o) InTime start inTimeRun ∧ Right o s := by
  have hr : (answered (.short 150 (by decide))).Readable :=
    readable_answered (Reply.readable_short _ _)
  have h : (answered (.short 150 (by decide))).Accepted := by constructor <;> decide
  have hrun := run_inTimeRun hr h
  obtain ⟨-, ht⟩ := (fxp_in_step _).2 _ _ hrun (by decide) rfl
  exact ⟨_, rfl, _, hrun, rfl, ht, (fxp_in_step _).1 hr h _ _ hrun ht⟩

theorem fxp_out_of_step :
    (∃ o : Outcome, o = answered (.short 550 (by decide)) ∧ ∃ s,
      run (step o) start (inTimeRun.take 6) = some s ∧ s.pc = .waitSrc ∧ s.src.due = [] ∧
        ¬ Right o s) ∧
    ∃ o : Outcome, o = answered (.short 150 (by decide)) ∧ ∃ s,
      run (step o) start [.write, .write, .arrive .src 1, .write] = some s ∧ s.pc = .aborted ∧
        ¬ Right o s := by
  -- When `RETR` is refused, the client waits for a reply that does not come. When the reply to
  -- `PORT` is there before `RETR`, an assert fails.
  constructor
  · have hrun : (run (step (answered (.short 550 (by decide)))) start (inTimeRun.take 6)).map
        (fun s => (s.pc, s.src.due.length)) = some (.waitSrc, 0) := by decide +kernel
    obtain ⟨s, hs, hp⟩ := Option.map_eq_some_iff.mp hrun
    obtain ⟨hpc, hdue⟩ := Prod.mk.inj hp
    have hnil : s.src.due = [] := List.eq_nil_of_length_eq_zero hdue
    exact ⟨_, rfl, s, hs, hpc, hnil, fun h => h.due .src (by rw [hpc]; rfl) hnil⟩
  · have hrun : (run (step (answered (.short 150 (by decide)))) start
        [.write, .write, .arrive .src 1, .write]).map State.pc = some .aborted := by decide +kernel
    obtain ⟨s, hs, hpc⟩ := Option.map_eq_some_iff.mp hrun
    exact ⟨_, rfl, s, hs, hpc, fun h => h.not_aborted hpc⟩

end NullFxp.Transportor.Fxp
