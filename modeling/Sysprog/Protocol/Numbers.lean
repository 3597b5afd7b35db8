import Sysprog.Protocol.Stream

namespace Sysprog.Protocol

open Execute

/-- The line of a storing request, its numbers given as digits. -/
def storeLine (verb : Verb) (key flags : Bytes) (exptime : Int) (bytes : Bytes) : Bytes :=
  verb.name ++ text " " ++ key ++ text " " ++ flags ++ text " " ++ signedDecimal exptime ++
    text " " ++ bytes ++ crlf

namespace Parser

theorem digitSum_decimal_of_lt {n : Nat} (h : n < 10) : digitSum (decimal n) = n := by
  simp [decimal_of_lt h, digitSum, digitChar_byte n h]

theorem digitSum_decimal_of_le {n : Nat} (h : 10 ≤ n) :
    digitSum (decimal n) = digitSum (decimal (n / 10)) + n % 10 := by
  rw [decimal_of_le h, digitSum_append]
  simp [digitSum, (digitChar_byte (n % 10) (by omega)).2]

theorem digitSum_decimal_le (n : Nat) : digitSum (decimal n) ≤ n := by
  induction n using Nat.strongRecOn with
  | ind n ih =>
    by_cases h : n < 10
    · exact le_of_eq (digitSum_decimal_of_lt h)
    · have hrec := ih (n / 10) (by omega)
      rw [digitSum_decimal_of_le (by omega)]
      omega

/-- From two digits on their sum is smaller than the number. -/
theorem digitSum_decimal_eq_self (n : Nat) : digitSum (decimal n) = n ↔ n < 10 := by
  constructor
  · intro he
    by_contra h
    have hle := digitSum_decimal_le (n / 10)
    rw [digitSum_decimal_of_le (by omega)] at he
    omega
  · exact digitSum_decimal_of_lt

end Parser

theorem parsedExpire_eq_self (n : Int) : parsedExpire n = n ↔ -9 ≤ n ∧ n ≤ 9 := by
  have h := Parser.digitSum_decimal_eq_self n.natAbs
  unfold parsedExpire
  split_ifs with hn <;> omega

/-- The digits of an `int32_t` add up to an `int32_t`. -/
theorem expireFits_of_int32 {n : Int} (hmin : -2 ^ 31 ≤ n) (hmax : n < 2 ^ 31) : ExpireFits n := by
  have h := Parser.digitSum_decimal_le n.natAbs
  unfold ExpireFits parsedExpire
  split_ifs with hn <;> omega

namespace Parser

variable {p : Parser}

/-- The line is taken as a whole and comes out as this command. -/
def Decodes (p : Parser) (line rest : Bytes) (c : Command) (bodySize : Nat) : Prop :=
  (p.parse (line ++ rest)).Returns true ∧ (p.parse (line ++ rest)).pos = line.length ∧
    (p.parse (line ++ rest)).parser.build = .command c bodySize

instance (p : Parser) (line rest : Bytes) (c : Command) (bodySize : Nat) :
    Decidable (Decodes p line rest c bodySize) := inferInstanceAs (Decidable (_ ∧ _ ∧ _))

theorem command_injective (verb : Verb) {a b : InsertCommand}
    (h : verb.command a = verb.command b) : a = b := by
  cases verb <;> exact (by simpa [Verb.command] using h)

/-- A storing line comes out as its fields exactly when its expiration time has one digit, since
the parser adds the digits up. -/
theorem store_decodes_iff (h : p.Fresh) (verb : Verb) {key : Bytes} (hk : KeyWellFormed key)
    {flags bytes : Nat} (hf : flags < 2 ^ 32) (hb : bytes < 2 ^ 32) {exptime : Int}
    (hmin : -2 ^ 31 ≤ exptime) (hmax : exptime < 2 ^ 31) (rest : Bytes) :
    Decodes p (storeLine verb key (decimal flags) exptime (decimal bytes)) rest
      (verb.command ⟨key, flags, exptime⟩) bytes ↔ -9 ≤ exptime ∧ exptime ≤ 9 := by
  obtain ⟨hff, hfv⟩ := decimal_of_fits hf
  obtain ⟨hbf, hbv⟩ := decimal_of_fits hb
  have hline := reads_store h verb hk (decimal_isDigit flags) hff (expireFits_of_int32 hmin hmax)
    (decimal_isDigit bytes) hbf
  rw [hfv, hbv] at hline
  have hparse := hline.parse rfl rest
  change p.parse (storeLine verb key (decimal flags) exptime (decimal bytes) ++ rest) = _ at hparse
  rw [← parsedExpire_eq_self, Decodes, hparse, build_verb verb rfl rfl]
  constructor
  · intro hd
    have hc := (Built.command.inj hd.2.2).1
    exact congrArg InsertCommand.expire (command_injective verb hc)
  · intro he
    refine ⟨⟨rfl, rfl⟩, rfl, ?_⟩
    rw [he]
    rfl

theorem store_decodes_negative :
    Decodes (create false) (storeLine .add (text "bar") (decimal 10) (-1) (decimal 60))
      (text "barval\r\n") (.add ⟨text "bar", 10, -1⟩) 60 :=
  (store_decodes_iff (fresh_create false) .add (by decide) (by decide) (by decide) (by decide)
    (by decide) _).mpr (by decide)

/-- `set k 0 10 1` expires at 1. -/
theorem store_not_decoded :
    ¬Decodes (create false) (storeLine .set (text "k") (decimal 0) 10 (decimal 1)) []
      (.set ⟨text "k", 0, 10⟩) 1 := by
  decide

/-- The parser throws within digits at which the number falls, and keeps waiting for more. -/
theorem parse_falls (f : Number) (value : Nat) (hs : p.state = f.state)
    (hp : p.parseComplete = false) (hv : f.value p = value % 2 ^ 32) {ds : Bytes}
    (hd : ∀ b ∈ ds, isDigit b = true) (hf : Falls value ds) (rest : Bytes) :
    ∃ q pos, p.parse (ds ++ rest) = ⟨q, pos, some f.overflow⟩ ∧ pos < ds.length ∧
      q.state = f.state ∧ q.parseComplete = false := by
  induction ds generalizing p value with
  | nil => exact hf.elim
  | cons d ds ih =>
    have hstep := f.step_digit hs (hd d (by simp))
    rw [hv, pushDigit_mod] at hstep
    by_cases hlt : (value * 10 + digitVal d) % 2 ^ 32 < value % 2 ^ 32
    · rw [if_pos hlt] at hstep
      exact ⟨p, 0, parse_cons_error hp hstep _, Nat.succ_pos _, hs, hp⟩
    · rw [if_neg hlt] at hstep
      obtain ⟨q, pos, hq, hpos, hqs, hqp⟩ := ih (value * 10 + digitVal d)
        (p := f.assign p ((value * 10 + digitVal d) % 2 ^ 32)) (by simpa using hs)
        (by simpa using hp) (by simp) (fun b hb => hd b (by simp [hb])) (hf.resolve_left hlt)
      refine ⟨q, pos + 1, ?_, Nat.succ_lt_succ hpos, hqs, hqp⟩
      rw [List.cons_append, parse_cons_ok hp hstep, hq]
      cases f <;> rfl

namespace Number

/-- A storing line with these digits for one of its numbers and the other one as it should be. -/
def line (f : Number) (verb : Verb) (key : Bytes) (other : Nat) (exptime : Int) (ds : Bytes) : Bytes :=
  match f with
  | flags => storeLine verb key ds exptime (decimal other)
  | bytes => storeLine verb key (decimal other) exptime ds

/-- What is before the digits. -/
def before (f : Number) (verb : Verb) (key : Bytes) (other : Nat) (exptime : Int) : Bytes :=
  match f with
  | flags => verb.name ++ text " " ++ key ++ text " "
  | bytes => verb.name ++ text " " ++ key ++ text " " ++ decimal other ++ text " " ++
      signedDecimal exptime ++ text " "

/-- What is behind them. -/
def behind (f : Number) (other : Nat) (exptime : Int) : Bytes :=
  match f with
  | flags => text " " ++ signedDecimal exptime ++ text " " ++ decimal other ++ crlf
  | bytes => crlf

theorem line_eq (f : Number) (verb : Verb) (key : Bytes) (other : Nat) (exptime : Int) (ds : Bytes) :
    f.line verb key other exptime ds =
      f.before verb key other exptime ++ ds ++ f.behind other exptime := by
  cases f <;> simp [line, storeLine, before, behind, List.append_assoc]

/-- A number that fits is accepted with its value, any other one is thrown out and leaves nothing
to build a command from. -/
def Checked (f : Number) (p : Parser) (verb : Verb) (key : Bytes) (other : Nat) (exptime : Int)
    (ds rest : Bytes) : Prop :=
  let r := p.parse (f.line verb key other exptime ds ++ rest)
  (ofDigits 0 ds < 2 ^ 32 → r.Returns true ∧ r.pos = (f.line verb key other exptime ds).length ∧
    f.value r.parser = ofDigits 0 ds) ∧
  (2 ^ 32 ≤ ofDigits 0 ds → r.Thrown ∧ r.pos < (f.line verb key other exptime ds).length ∧
    r.parser.parseComplete = false ∧ r.parser.build = .null)

section line

variable {verb : Verb} {key : Bytes} {other : Nat} {exptime : Int} {ds : Bytes}

theorem reads_before (h : p.Fresh) (f : Number) (verb : Verb) (hk : KeyWellFormed key)
    (ho : other < 2 ^ 32) (he : ExpireFits exptime) :
    ∃ q, Reads p (f.before verb key other exptime) q ∧ q.state = f.state ∧
      q.parseComplete = false ∧ f.value q = 0 := by
  cases f with
  | flags => exact ⟨_, reads_key h verb hk, rfl, h.incomplete, h.flags⟩
  | bytes =>
    exact ⟨_, reads_expire h verb hk (decimal_isDigit other) (decimal_of_fits ho).1 he, rfl,
      h.incomplete, h.bytes⟩

/-- A line whose number never falls is taken, with what is left of the number. -/
theorem reads_line (h : p.Fresh) (f : Number) (verb : Verb) (hk : KeyWellFormed key)
    (ho : other < 2 ^ 32) (he : ExpireFits exptime) (hd : ∀ b ∈ ds, isDigit b = true)
    (hf : ¬Falls 0 ds) :
    ∃ q, Reads p (f.line verb key other exptime ds) q ∧ q.parseComplete = true ∧
      f.value q = ofDigits 0 ds % 2 ^ 32 := by
  have hof := (decimal_of_fits ho).1
  cases f with
  | flags => exact ⟨_, reads_store h verb hk hd hf he (decimal_isDigit other) hof, rfl, rfl⟩
  | bytes => exact ⟨_, reads_store h verb hk (decimal_isDigit other) hof he hd hf, rfl, rfl⟩

theorem accepts_of_not_falls (h : p.Fresh) (f : Number) (verb : Verb) (hk : KeyWellFormed key)
    (ho : other < 2 ^ 32) (he : ExpireFits exptime) (hd : ∀ b ∈ ds, isDigit b = true)
    (hf : ¬Falls 0 ds) (rest : Bytes) :
    (p.parse (f.line verb key other exptime ds ++ rest)).Returns true ∧
    (p.parse (f.line verb key other exptime ds ++ rest)).pos =
      (f.line verb key other exptime ds).length ∧
    f.value (p.parse (f.line verb key other exptime ds ++ rest)).parser =
      ofDigits 0 ds % 2 ^ 32 := by
  obtain ⟨q, hr, hq, hv⟩ := reads_line h f verb hk ho he hd hf
  rw [hr.parse hq rest]
  exact ⟨⟨rfl, hq⟩, rfl, hv⟩

theorem rejects_of_falls (h : p.Fresh) (f : Number) (verb : Verb) (hk : KeyWellFormed key)
    (ho : other < 2 ^ 32) (he : ExpireFits exptime) (hd : ∀ b ∈ ds, isDigit b = true)
    (hf : Falls 0 ds) (rest : Bytes) :
    (p.parse (f.line verb key other exptime ds ++ rest)).Thrown ∧
    (p.parse (f.line verb key other exptime ds ++ rest)).pos <
      (f.line verb key other exptime ds).length ∧
    (p.parse (f.line verb key other exptime ds ++ rest)).parser.parseComplete = false ∧
    (p.parse (f.line verb key other exptime ds ++ rest)).parser.build = .null := by
  obtain ⟨q, hr, hqs, hqp, hqv⟩ := reads_before h f verb hk ho he
  obtain ⟨r, pos, hp, hpos, hrs, hrp⟩ := parse_falls f 0 hqs hqp hqv hd hf
    (f.behind other exptime ++ rest)
  have hsplit : f.line verb key other exptime ds ++ rest =
      f.before verb key other exptime ++ (ds ++ (f.behind other exptime ++ rest)) := by
    simp [line_eq, List.append_assoc]
  have hbuild : r.build = .null := if_pos (by rw [hrs]; cases f <;> decide)
  rw [hsplit, hr.parse_pending hqp, hp]
  refine ⟨by simp [Parsed.Thrown], ?_, hrp, hbuild⟩
  rw [line_eq]
  simp only [List.length_append]
  omega

end line

/-- The overflow of a number is noticed exactly when there is none or the number falls at one of
its digits. -/
theorem checked_iff (h : p.Fresh) (f : Number) (verb : Verb) {key : Bytes} (hk : KeyWellFormed key)
    {other : Nat} (ho : other < 2 ^ 32) {exptime : Int} (hmin : -2 ^ 31 ≤ exptime)
    (hmax : exptime < 2 ^ 31) {ds : Bytes} (hd : ∀ b ∈ ds, isDigit b = true) (rest : Bytes) :
    f.Checked p verb key other exptime ds rest ↔ ofDigits 0 ds < 2 ^ 32 ∨ Falls 0 ds := by
  have he := expireFits_of_int32 hmin hmax
  constructor
  · intro hc
    by_contra hn
    obtain ⟨hbig, hf⟩ := not_or.mp hn
    have hret := (accepts_of_not_falls h f verb hk ho he hd hf rest).1
    exact (hc.2 (Nat.le_of_not_lt hbig)).1 hret.1
  · intro hor
    by_cases hlt : ofDigits 0 ds < 2 ^ 32
    · obtain ⟨hret, hpos, hv⟩ :=
        accepts_of_not_falls h f verb hk ho he hd (not_falls_of_lt hlt) rest
      rw [Nat.mod_eq_of_lt hlt] at hv
      exact ⟨fun _ => ⟨hret, hpos, hv⟩, fun hbig => absurd hlt (Nat.not_lt.mpr hbig)⟩
    · have hrej := rejects_of_falls h f verb hk ho he hd (hor.resolve_left hlt) rest
      exact ⟨fun hsmall => absurd hsmall hlt, fun _ => hrej⟩

/-- 2^32 itself falls to 0. -/
theorem checked_power : bytes.Checked (create false) .set (text "k") 0 0 (text "4294967296") [] :=
  (checked_iff (fresh_create false) .bytes .set (by decide) (by decide) (by decide) (by decide)
    (forall_of_all (by decide)) []).mpr (.inr (by decide))

/-- `set k 0 0 5000000000` announces 705032704 bytes. -/
theorem not_checked : ¬bytes.Checked (create false) .set (text "k") 0 0 (text "5000000000") [] := by
  intro hc
  have hthrown := (hc.2 (by decide)).1
  revert hthrown
  decide

end Number

end Parser

end Sysprog.Protocol
