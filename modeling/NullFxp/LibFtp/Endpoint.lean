import NullFxp.Lib.RegexLaws
import NullFxp.LibFtp.Operations

/-!
# From PASV to PORT

Between two servers the endpoint that one of them opens is handed to the other one: it is cut out of
the reply to `PASV`, stored, and written again by `PORT`.
-/

open Text Regex

namespace NullFxp.LibFtp

section

variable {σ : Type} (io : Ctrl σ)

def pasvPeer (ftp : Ftp σ) : QString × Nat := (ftp.pasvHost, ftp.pasvPort)

/-- `port`, but the reply stays unread. -/
def portNoWaitResponse (hostip : QString) (port : Nat) (ftp : Ftp σ) : Option (Int × Ftp σ) :=
  if io.bytesAvailable ftp.sock = 0 then
    let (written, sock) := io.send (toAscii (portLine hostip port)) ftp.sock
    some (if written then 0 else -1, { ftp with sock := sock })
  else none

end

/-! ## Six numbers -/

def IsNumber (w : QString) : Prop := w ≠ [] ∧ ∀ c ∈ w, digit c = true

/-- `a,b,c,d,e,f` -/
def sixNumbers (a b c d e f : QString) : QString :=
  a ++ ([','] ++ (b ++ ([','] ++ (c ++ ([','] ++ (d ++ ([','] ++ (e ++ ([','] ++ f)))))))))

/-- Six numbers with commas between them stand somewhere in the text. -/
def HasSixNumbers (s : QString) : Prop :=
  ∃ pre a b c d e f suf, s = pre ++ (sixNumbers a b c d e f ++ suf) ∧ IsNumber a ∧ IsNumber b ∧
    IsNumber c ∧ IsNumber d ∧ IsNumber e ∧ IsNumber f

variable {a b c d e f pre suf : QString}

theorem isNumber_repr (n : Nat) : IsNumber n.repr.toList := by
  refine ⟨repr_toList_ne_nil n, ?_⟩
  intro x hx
  obtain ⟨v, hv⟩ := digitVal_of_mem_repr hx
  exact digit_of_digitVal hv

theorem IsNumber.not_mem {x : Char} (h : IsNumber a) (hx : digit x = false) : x ∉ a := by
  intro hmem
  rw [h.2 x hmem] at hx
  cases hx

theorem IsNumber.reads (h : IsNumber a) {t : List Char} (ht : Ends digit t) :
    (Pat.group (.plus digit)).Reads a t [a] := Pat.reads_group (Pat.reads_plus h.1 h.2 ht)

theorem addrPortPattern_reads (ha : IsNumber a) (hb : IsNumber b) (hc : IsNumber c)
    (hd : IsNumber d) (he : IsNumber e) (hf : IsNumber f) (hsuf : Ends digit suf) :
    addrPortPattern.Reads (sixNumbers a b c d e f) suf [a, b, c, d, e, f] := by
  have hcomma : ∀ t : List Char, Ends digit ([','] ++ t ++ suf) := by
    intro t
    rw [List.append_assoc]
    exact ends_append (by simp) (by simpa using show digit ',' = false by decide)
  refine Pat.reads_seq (ha.reads (hcomma _)) (Pat.reads_seq Pat.reads_chr ?_)
  refine Pat.reads_seq (hb.reads (hcomma _)) (Pat.reads_seq Pat.reads_chr ?_)
  refine Pat.reads_seq (hc.reads (hcomma _)) (Pat.reads_seq Pat.reads_chr ?_)
  refine Pat.reads_seq (hd.reads (hcomma _)) (Pat.reads_seq Pat.reads_chr ?_)
  refine Pat.reads_seq (he.reads (hcomma _)) (Pat.reads_seq Pat.reads_chr ?_)
  exact hf.reads hsuf

theorem addrPortPattern_accepts {v r : List Char} (h : addrPortPattern.Accepts v r) :
    ∃ a b c d e f, v = sixNumbers a b c d e f ∧ IsNumber a ∧ IsNumber b ∧ IsNumber c ∧
      IsNumber d ∧ IsNumber e ∧ IsNumber f := by
  have hnum : ∀ {w t}, (Pat.group (.plus digit)).Accepts w t → IsNumber w :=
    fun h => Pat.accepts_plus.mp h
  obtain ⟨a, _, rfl, ha, _, _, rfl, h1, b, _, rfl, hb, _, _, rfl, h2, c, _, rfl, hc, _, _, rfl, h3,
    d, _, rfl, hd, _, _, rfl, h4, e, _, rfl, he, _, f, rfl, h5, hf⟩ := h
  rw [Pat.accepts_chr] at h1 h2 h3 h4 h5
  subst h1 h2 h3 h4 h5
  exact ⟨a, b, c, d, e, f, rfl, hnum ha, hnum hb, hnum hc, hnum hd, hnum he, hnum hf⟩

/-! ## What `passive` cuts out -/

theorem takeWhile_sixNumbers (ha : ',' ∉ a) (t : List Char) :
    (sixNumbers a b c d e f ++ t).takeWhile (· ≠ ',') = a := by
  rw [sixNumbers, List.append_assoc, List.takeWhile_append_of_pos]
  · simp
  · intro x hx
    simpa using ne_of_mem_of_not_mem hx ha

theorem find_sixNumbers (ha : IsNumber a) (hb : IsNumber b) (hc : IsNumber c) (hd : IsNumber d)
    (he : IsNumber e) (hf : IsNumber f) (hpre : ',' ∉ pre)
    (hlast : ∀ x ∈ pre.getLast?, digit x = false) (hsuf : Ends digit suf) :
    addrPortPattern.find (pre ++ (sixNumbers a b c d e f ++ suf)) =
      some [sixNumbers a b c d e f, a, b, c, d, e, f] := by
  apply Pat.find_of_reads (addrPortPattern_reads ha hb hc hd he hf hsuf)
  intro j hj v r hv hacc
  obtain ⟨a', b', c', d', e', f', rfl, ha', -⟩ := addrPortPattern_accepts hacc
  have hcomma : digit ',' = false := by decide
  have hrest : ',' ∉ pre.drop j ++ a := by
    simp only [List.mem_append, not_or]
    exact ⟨fun h => hpre (List.mem_of_mem_drop h), ha.not_mem hcomma⟩
  have hfirst : pre.drop j ++ a = a' := by
    have hsix : pre.drop j ++ (sixNumbers a b c d e f ++ suf) =
        sixNumbers (pre.drop j ++ a) b c d e f ++ suf := by simp [sixNumbers]
    rw [List.drop_append_of_le_length hj.le, hsix] at hv
    have htake := congrArg (List.takeWhile (· ≠ ',')) hv
    rwa [takeWhile_sixNumbers hrest, takeWhile_sixNumbers (ha'.not_mem hcomma)] at htake
  have hne : pre ≠ [] := List.ne_nil_of_length_pos (by omega)
  have hmem : pre.getLast hne ∈ a' := by
    rw [← hfirst]
    apply List.mem_append_left
    rw [← List.getLast_drop (l := pre) (i := j) (by simpa using hj)]
    exact List.getLast_mem _
  have hdigit := ha'.2 _ hmem
  rw [hlast _ (List.getLast?_eq_some_getLast hne)] at hdigit
  cases hdigit

theorem find_of_not_hasSixNumbers {s : QString} (h : ¬ HasSixNumbers s) :
    addrPortPattern.find s = none := by
  apply Pat.find_eq_none
  rintro u v r rfl hacc
  obtain ⟨a, b, c, d, e, f, rfl, hall⟩ := addrPortPattern_accepts hacc
  exact h ⟨u, a, b, c, d, e, f, r, rfl, hall⟩

/-! ## The hand-over -/

structure Endpoint where
  h1 : UInt8
  h2 : UInt8
  h3 : UInt8
  h4 : UInt8
  p1 : UInt8
  p2 : UInt8

namespace Endpoint

/-- In decimal, without leading zeros. -/
def decimal (n : UInt8) : QString := n.toNat.repr.toList

variable (x : Endpoint)

/-- `h1,h2,h3,h4,p1,p2` -/
def text : QString :=
  sixNumbers (decimal x.h1) (decimal x.h2) (decimal x.h3) (decimal x.h4) (decimal x.p1)
    (decimal x.p2)

/-- `h1.h2.h3.h4` -/
def host : QString :=
  decimal x.h1 ++ '.' :: decimal x.h2 ++ '.' :: decimal x.h3 ++ '.' :: decimal x.h4

def port : Nat := x.p1.toNat * 256 + x.p2.toNat

theorem isNumber_decimal (n : UInt8) : IsNumber (decimal n) := isNumber_repr _

theorem toUInt_decimal (n : UInt8) : toUInt (decimal n) = n.toNat := by
  have hlt := n.toNat_lt
  have hnum : toNumber 0 0xffffffff (decimal n) = n.toNat :=
    toNumber_of_digits (repr_toList_ne_nil _) (digitsVal_repr _)
      (fun c hc => digitVal_of_mem_repr hc) (by omega) (by omega)
  rw [toUInt, hnum, Int.toNat_natCast]

theorem commas_decimal (n : UInt8) :
    (decimal n).map (fun c => if c = '.' then ',' else c) = decimal n := by
  have hdot : '.' ∉ decimal n := (isNumber_decimal n).not_mem (by decide)
  rw [List.map_congr_left (g := id), List.map_id]
  intro c hc
  exact if_neg (ne_of_mem_of_not_mem hc hdot)

theorem portLine_eq : portLine x.host x.port = cmdLine "PORT" x.text := by
  have h1 := x.p1.toNat_lt
  have h2 := x.p2.toNat_lt
  have hhigh : x.port / 256 % 256 = x.p1.toNat := by unfold port; omega
  have hlow : x.port % 256 = x.p2.toNat := by unfold port; omega
  rw [portLine, hhigh, hlow, host]
  simp only [List.map_append, List.map_cons, commas_decimal]
  simp [text, sixNumbers, decimal]

end Endpoint

theorem passive_endpoint (x : Endpoint) (hpre : ',' ∉ pre)
    (hlast : ∀ c ∈ pre.getLast?, digit c = false) (hsuf : Ends digit suf) {ball : Bytes}
    (hball : fromLatin1 ball = pre ++ (x.text ++ suf)) (ftp : Ftp Script) :
    passive scripted (ftp.answered [ball]) = some (0, { ftp with
      sock := ⟨ftp.sock.sent ++ [toAscii "PASV\r\n".toList], []⟩
      pasvHost := x.host
      pasvPort := x.port }) := by
  have hnum := Endpoint.isNumber_decimal
  have hfind := find_sixNumbers (hnum x.h1) (hnum x.h2) (hnum x.h3) (hnum x.h4) (hnum x.p1)
    (hnum x.p2) hpre hlast hsuf
  have hport : (toUInt (Endpoint.decimal x.p1) * 256 + toUInt (Endpoint.decimal x.p2)) % 65536 =
      x.port := by
    have h1 := x.p1.toNat_lt
    have h2 := x.p2.toNat_lt
    rw [Endpoint.toUInt_decimal, Endpoint.toUInt_decimal, Endpoint.port]
    omega
  rw [Endpoint.text] at hball
  rw [← hball] at hfind
  simp only [passive, command_scripted, exchange_scripted, Ftp.answered, List.headD_cons,
    List.tail_cons, hfind, hport]
  rfl

theorem passive_no_numbers {ball : Bytes} (h : ¬ HasSixNumbers (fromLatin1 ball)) (ftp : Ftp Script) :
    passive scripted (ftp.answered [ball]) =
      some (-1, { ftp with sock := ⟨ftp.sock.sent ++ [toAscii "PASV\r\n".toList], []⟩ }) := by
  simp only [passive, command_scripted, exchange_scripted, Ftp.answered, List.headD_cons,
    List.tail_cons, find_of_not_hasSixNumbers h]

/-- **The endpoint is handed over unchanged**, whatever stands around it in the reply, and a reply
without an endpoint leaves the stored one as it is. -/
theorem pasv_to_port :
    (∀ (x : Endpoint) (pre suf : QString) (ball : Bytes), ',' ∉ pre →
      (∀ c ∈ pre.getLast?, digit c = false) → (∀ c ∈ suf.head?, digit c = false) →
      fromLatin1 ball = pre ++ (x.text ++ suf) → ∀ ftp : Ftp Script,
      ∃ ftp', passive scripted (ftp.answered [ball]) = some (0, ftp') ∧ ∀ other : Ftp Script,
        (∃ other', portNoWaitResponse scripted (pasvPeer ftp').1 (pasvPeer ftp').2 other =
            some (0, other') ∧
          other'.sock.sent = other.sock.sent ++ [toAscii (cmdLine "PORT" x.text)]) ∧
        ∃ r other', port scripted (pasvPeer ftp').1 (pasvPeer ftp').2 other = some (r, other') ∧
          other'.sock.sent = other.sock.sent ++ [toAscii (cmdLine "PORT" x.text)]) ∧
    ∀ ball : Bytes, ¬ HasSixNumbers (fromLatin1 ball) → ∀ ftp : Ftp Script,
      ∃ ftp', passive scripted (ftp.answered [ball]) = some (-1, ftp') ∧
        pasvPeer ftp' = pasvPeer ftp := by
  constructor
  · intro x pre suf ball hpre hlast hsuf hball ftp
    refine ⟨_, passive_endpoint x hpre hlast hsuf hball ftp, ?_⟩
    intro other
    rw [← x.portLine_eq]
    exact ⟨⟨_, rfl, rfl⟩, _, _, rfl, rfl⟩
  · intro ball hball ftp
    exact ⟨_, passive_no_numbers hball ftp, rfl⟩

theorem pasv_to_port_local :
    ∃ ftp', passive scripted (Ftp.answered { sock := {}, codec := ⟨fromLatin1, toAscii⟩ }
        [toAscii "227 Entering Passive Mode (127,0,0,1,4,210).".toList]) = some (0, ftp') ∧
      ∃ r other', port scripted (pasvPeer ftp').1 (pasvPeer ftp').2
          { sock := {}, codec := ⟨fromLatin1, toAscii⟩ } = some (r, other') ∧
        other'.sock.sent = [toAscii "PORT 127,0,0,1,4,210\r\n".toList] := by
  obtain ⟨ftp', hpassive, hport⟩ := pasv_to_port.1 ⟨127, 0, 0, 1, 4, 210⟩
    "227 Entering Passive Mode (".toList ").".toList
    (toAscii "227 Entering Passive Mode (127,0,0,1,4,210).".toList) (by decide)
    (by simpa using show digit '(' = false by decide) (by simpa using show digit ')' = false by decide)
    (by decide) { sock := {}, codec := ⟨fromLatin1, toAscii⟩ }
  obtain ⟨-, r, other', hr, hsent⟩ := hport { sock := {}, codec := ⟨fromLatin1, toAscii⟩ }
  exact ⟨ftp', hpassive, r, other', hr, hsent⟩

end NullFxp.LibFtp
