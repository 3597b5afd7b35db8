import Sysprog.Protocol.Parser

namespace Sysprog.Protocol

open Execute

namespace Parser

variable {p q r : Parser} {us vs : Bytes}

/-- The parser gets through all of the bytes, and is not complete before the last one. -/
def Reads : Parser → Bytes → Parser → Prop
  | p, [], q => p = q
  | p, b :: bytes, q => p.parseComplete = false ∧ ∃ p', p.step 0 b = .ok p' ∧ Reads p' bytes q

theorem Reads.one {b : UInt8} (hp : p.parseComplete = false) (h : p.step 0 b = .ok q) :
    Reads p [b] q := ⟨hp, q, h, rfl⟩

theorem Reads.append (h : Reads p us q) (h' : Reads q vs r) : Reads p (us ++ vs) r := by
  induction us generalizing p with
  | nil =>
    obtain rfl : p = q := h
    exact h'
  | cons b us ih =>
    obtain ⟨hp, p', hs, hr⟩ := h
    exact ⟨hp, p', hs, ih hr⟩

/-- The parser throws at one of the bytes. -/
def Throws : Parser → Bytes → Prop
  | _, [] => False
  | p, b :: bytes => p.parseComplete = false ∧
    ((∃ e, p.step 0 b = .error e) ∨ ∃ p', p.step 0 b = .ok p' ∧ Throws p' bytes)

theorem Throws.append (h : Throws p us) (vs : Bytes) : Throws p (us ++ vs) := by
  induction us generalizing p with
  | nil => exact h.elim
  | cons b us ih =>
    obtain ⟨hp, he | ⟨p', hs, ht⟩⟩ := h
    · exact ⟨hp, .inl he⟩
    · exact ⟨hp, .inr ⟨p', hs, ih ht⟩⟩

theorem Reads.throws (h : Reads p us q) (ht : Throws q vs) : Throws p (us ++ vs) := by
  induction us generalizing p with
  | nil =>
    obtain rfl : p = q := h
    exact ht
  | cons b us ih =>
    obtain ⟨hp, p', hs, hr⟩ := h
    exact ⟨hp, .inr ⟨p', hs, ih hr⟩⟩

theorem Throws.parse (h : Throws p us) : (p.parse us).error ≠ none := by
  induction us generalizing p with
  | nil => exact h.elim
  | cons b us ih =>
    obtain ⟨hp, ⟨e, hs⟩ | ⟨p', hs, ht⟩⟩ := h
    · simp [parse_cons_error hp hs]
    · simpa [parse_cons_ok hp hs] using ih ht

/-- `Parse` stops behind a line that completes the header. -/
theorem Reads.parse (h : Reads p us q) (hq : q.parseComplete = true) (rest : Bytes) :
    p.parse (us ++ rest) = ⟨q, us.length, none⟩ := by
  induction us generalizing p with
  | nil =>
    obtain rfl : p = q := h
    exact parse_of_complete hq rest
  | cons b us ih =>
    obtain ⟨hp, p', hs, hr⟩ := h
    rw [List.cons_append, parse_cons_ok hp hs, ih hr]
    rfl

/-- Reading a field: `state us` is the parser after the part `us` of it. -/
theorem reads_field (state : Bytes → Parser) (field : Bytes)
    (h : ∀ us b vs, field = us ++ b :: vs → (state us).parseComplete = false ∧
      (state us).step 0 b = .ok (state (us ++ [b]))) : Reads (state []) field (state field) := by
  suffices hs : ∀ us vs, field = us ++ vs → Reads (state us) vs (state field) from hs [] field rfl
  intro us vs hf
  induction vs generalizing us with
  | nil => rw [hf, List.append_nil]; rfl
  | cons b vs ih =>
    obtain ⟨hp, hs⟩ := h us b vs hf
    exact ⟨hp, _, hs, ih (us ++ [b]) (by simp [hf])⟩

theorem reads_name (hs : p.state = .sName) (hp : p.parseComplete = false) (hn : p.name = [])
    (name : Bytes) (h : ∀ b ∈ name, b ≠ byte ' ' ∧ b ≠ byte '\r') :
    Reads p name { p with name := name } := by
  have hr := reads_field (fun us => { p with name := us }) name (by
    intro us b vs heq
    subst heq
    have hb := h b (by simp)
    exact ⟨hp, by simp [step, hs, stepName, hb]⟩)
  simpa only [← hn] using hr

theorem reads_putKey (hs : p.state = .spKey) (hp : p.parseComplete = false) (hk : p.curKey = [])
    (key : Bytes) (h : ∀ b ∈ key, b ≠ byte ' ') : Reads p key { p with curKey := key } := by
  have hr := reads_field (fun us => { p with curKey := us }) key (by
    intro us b vs heq
    subst heq
    have hb := h b (by simp)
    exact ⟨hp, by simp [step, hs, stepPutKey, hb]⟩)
  simpa only [← hk] using hr

theorem reads_getKey (hs : p.state = .sgKey) (hp : p.parseComplete = false) (hk : p.curKey = [])
    (key : Bytes) (h : ∀ b ∈ key, b ≠ byte ' ' ∧ b ≠ byte '\r') :
    Reads p key { p with curKey := key } := by
  have hr := reads_field (fun us => { p with curKey := us }) key (by
    intro us b vs heq
    subst heq
    have hb := h b (by simp)
    exact ⟨hp, by simp [step, hs, stepGetKey, hb]⟩)
  simpa only [← hk] using hr

/-- The numbers of a storing line that are read digit by digit into a `uint32_t`. -/
inductive Number where
  | flags | bytes
  deriving DecidableEq

namespace Number

/-- The state in which its digits are read. -/
def state : Number → State
  | flags => .spFlags
  | bytes => .spBytes

def value : Number → Parser → Nat
  | flags, p => p.flags
  | bytes, p => p.bytes

def assign : Number → Parser → Nat → Parser
  | flags, p, n => { p with flags := n }
  | bytes, p, n => { p with bytes := n }

/-- What a digit too many throws. -/
def overflow : Number → Error
  | flags => .flagsOverflow
  | bytes => .bytesOverflow

@[simp] theorem assign_value (f : Number) (p : Parser) : f.assign p (f.value p) = p := by
  cases f <;> rfl

@[simp] theorem value_assign (f : Number) (p : Parser) (n : Nat) : f.value (f.assign p n) = n := by
  cases f <;> rfl

@[simp] theorem assign_assign (f : Number) (p : Parser) (m n : Nat) :
    f.assign (f.assign p m) n = f.assign p n := by
  cases f <;> rfl

@[simp] theorem assign_state (f : Number) (p : Parser) (n : Nat) : (f.assign p n).state = p.state := by
  cases f <;> rfl

@[simp] theorem assign_parseComplete (f : Number) (p : Parser) (n : Nat) :
    (f.assign p n).parseComplete = p.parseComplete := by
  cases f <;> rfl

/-- One more digit, and the test for an overflow. -/
theorem step_digit (f : Number) (hs : p.state = f.state) {c : UInt8} (hc : isDigit c = true) :
    p.step 0 c = if pushDigit (f.value p) c < f.value p then .error f.overflow
      else .ok (f.assign p (pushDigit (f.value p) c)) := by
  obtain ⟨hspace, hcr, -⟩ := isDigit_ne hc
  cases f with
  | flags => simp [step, show p.state = .spFlags from hs, stepFlags, hspace, hc, value, overflow, assign]
  | bytes => simp [step, show p.state = .spBytes from hs, stepBytes, hcr, hc, value, overflow, assign]

end Number

/-- At some digit the number read so far gets smaller modulo 2^32, which is all the parser sees
of an overflow. -/
def Falls (value : Nat) : Bytes → Prop
  | [] => False
  | d :: ds => (value * 10 + digitVal d) % 2 ^ 32 < value % 2 ^ 32 ∨ Falls (value * 10 + digitVal d) ds

instance decidableFalls : ∀ value ds, Decidable (Falls value ds)
  | _, [] => inferInstanceAs (Decidable False)
  | value, d :: ds =>
    have := decidableFalls (value * 10 + digitVal d) ds
    inferInstanceAs (Decidable (_ ∨ _))

theorem not_falls_of_lt {value : Nat} {ds : Bytes} (h : ofDigits value ds < 2 ^ 32) :
    ¬Falls value ds := by
  induction ds generalizing value with
  | nil => exact id
  | cons d ds ih =>
    have hle := ofDigits_ge (value * 10 + digitVal d) ds
    change ofDigits (value * 10 + digitVal d) ds < 2 ^ 32 at h
    intro hfall
    rcases hfall with hlt | hrest
    · rw [Nat.mod_eq_of_lt (by omega), Nat.mod_eq_of_lt (by omega)] at hlt
      omega
    · exact ih h hrest

theorem pushDigit_mod (value : Nat) (d : UInt8) :
    pushDigit (value % 2 ^ 32) d = (value * 10 + digitVal d) % 2 ^ 32 := by
  unfold pushDigit
  omega

/-- Digits are read as long as the number does not fall; what is left of it is its remainder. -/
theorem reads_number (f : Number) (value : Nat) (hs : p.state = f.state)
    (hp : p.parseComplete = false) (hv : f.value p = value % 2 ^ 32) {ds : Bytes}
    (hd : ∀ b ∈ ds, isDigit b = true) (hf : ¬Falls value ds) : Reads p ds (f.assign p (ofDigits value ds % 2 ^ 32)) := by
  induction ds generalizing p value with
  | nil =>
    change p = f.assign p (value % 2 ^ 32)
    rw [← hv, Number.assign_value]
  | cons d ds ih =>
    obtain ⟨hkeep, hrest⟩ := not_or.mp hf
    refine ⟨hp, f.assign p ((value * 10 + digitVal d) % 2 ^ 32), ?_, ?_⟩
    · rw [f.step_digit hs (hd d (by simp)), hv, pushDigit_mod, if_neg hkeep]
    · have hr := ih (value * 10 + digitVal d) (p := f.assign p ((value * 10 + digitVal d) % 2 ^ 32))
        (by simpa using hs) (by simpa using hp) (by simp) (fun b hb => hd b (by simp [hb])) hrest
      rwa [Number.assign_assign] at hr

/-- A number that fits is read as it is. -/
theorem decimal_of_fits {n : Nat} (hn : n < 2 ^ 32) :
    ¬Falls 0 (decimal n) ∧ ofDigits 0 (decimal n) % 2 ^ 32 = n := by
  have hv := ofDigits_decimal n
  exact ⟨not_falls_of_lt (by omega), by omega⟩

/-- Sum of the digits of a numeral. -/
def digitSum (ds : Bytes) : Nat := (ds.map digitVal).sum

@[simp] theorem digitSum_append (us vs : Bytes) : digitSum (us ++ vs) = digitSum us + digitSum vs := by
  simp [digitSum]

theorem digitSum_cons (d : UInt8) (ds : Bytes) : digitSum (d :: ds) = digitVal d + digitSum ds := by
  simp [digitSum]

/-- The digits of an expiration time, added up one by one. -/
theorem reads_expiring (ds : Bytes) (hs : p.state = .spExprTime) (hp : p.parseComplete = false)
    (hneg : p.negative = false) (hd : ∀ b ∈ ds, isDigit b = true) (h0 : 0 ≤ p.exprtime)
    (h : p.exprtime + digitSum ds < 2 ^ 31) :
    Reads p ds { p with exprtime := p.exprtime + digitSum ds } := by
  have hr := reads_field (fun us => { p with exprtime := p.exprtime + digitSum us }) ds (by
    intro us b vs heq
    subst heq
    have hb := hd b (by simp)
    have hsum : digitSum [b] = digitVal b := by simp [digitSum]
    rw [digitSum_append, digitSum_cons] at h
    have hmod : (p.exprtime + digitSum us + digitVal b).bmod (2 ^ 32) =
        p.exprtime + digitSum us + digitVal b := Int.bmod_eq_of_le (by omega) (by omega)
    have heq : p.exprtime + digitSum us + digitVal b =
        p.exprtime + ((digitSum us + digitVal b : Nat) : Int) := by omega
    refine ⟨hp, ?_⟩
    simp only [step, hs, stepExprTime, (isDigit_ne hb).1, hb, hneg, hmod, if_true, if_false,
      Bool.false_eq_true, digitSum_append, hsum]
    rw [if_neg (by omega), heq])
  simpa [digitSum] using hr

/-- The digits of a negative one. -/
theorem reads_expired (hs : p.state = .spExprTime) (hp : p.parseComplete = false)
    (hneg : p.negative = true) {ds : Bytes} (hd : ∀ b ∈ ds, isDigit b = true) (h0 : p.exprtime = 0)
    (h : digitSum ds ≤ 2 ^ 31) : Reads p ds { p with exprtime := -digitSum ds } := by
  have hr := reads_field (fun us => { p with exprtime := -digitSum us }) ds (by
    intro us b vs heq
    subst heq
    have hb := hd b (by simp)
    have hsum : digitSum [b] = digitVal b := by simp [digitSum]
    rw [digitSum_append, digitSum_cons] at h
    have hmod : (-(digitSum us : Int) - digitVal b).bmod (2 ^ 32) = -digitSum us - digitVal b :=
      Int.bmod_eq_of_le (by omega) (by omega)
    have heq : -(digitSum us : Int) - digitVal b = -((digitSum us + digitVal b : Nat) : Int) := by
      omega
    refine ⟨hp, ?_⟩
    simp only [step, hs, stepExprTime, (isDigit_ne hb).1, hb, hneg, hmod, if_true, if_false,
      digitSum_append, hsum]
    rw [if_neg (by omega), heq])
  have hzero : -(digitSum [] : Int) = p.exprtime := by simp [digitSum, h0]
  simpa only [hzero] using hr

/-- Digits that do not add up to an `int32_t`. -/
theorem throws_expiring {ds : Bytes} (hs : p.state = .spExprTime) (hp : p.parseComplete = false)
    (hneg : p.negative = false) (hd : ∀ b ∈ ds, isDigit b = true) (h0 : 0 ≤ p.exprtime)
    (hlt : p.exprtime < 2 ^ 31) (h : 2 ^ 31 ≤ p.exprtime + digitSum ds) : Throws p ds := by
  induction ds generalizing p with
  | nil =>
    simp only [digitSum, List.map_nil, List.sum_nil] at h
    omega
  | cons b ds ih =>
    have hb := hd b (by simp)
    have hval := digitVal_lt b
    rw [digitSum_cons] at h
    refine ⟨hp, ?_⟩
    simp only [step, hs, stepExprTime, (isDigit_ne hb).1, hb, hneg, if_true, if_false,
      Bool.false_eq_true]
    by_cases hfit : p.exprtime + digitVal b < 2 ^ 31
    · rw [Int.bmod_eq_of_le (by omega) (by omega), if_neg (by omega)]
      refine .inr ⟨_, rfl, ih rfl hp rfl (fun c hc => hd c (by simp [hc])) ?_ hfit ?_⟩
      · change 0 ≤ p.exprtime + digitVal b
        omega
      · change 2 ^ 31 ≤ p.exprtime + digitVal b + digitSum ds
        omega
    · have hwrap : (p.exprtime + digitVal b).bmod (2 ^ 32) < p.exprtime := by
        rw [Int.bmod_def]
        split <;> omega
      exact .inl ⟨_, if_pos hwrap⟩

/-- The same for a negative one. -/
theorem throws_expired {ds : Bytes} (hs : p.state = .spExprTime) (hp : p.parseComplete = false)
    (hneg : p.negative = true) (hd : ∀ b ∈ ds, isDigit b = true) (h0 : p.exprtime ≤ 0)
    (hge : -2 ^ 31 ≤ p.exprtime) (h : p.exprtime - digitSum ds < -2 ^ 31) : Throws p ds := by
  induction ds generalizing p with
  | nil =>
    simp only [digitSum, List.map_nil, List.sum_nil] at h
    omega
  | cons b ds ih =>
    have hb := hd b (by simp)
    have hval := digitVal_lt b
    rw [digitSum_cons] at h
    refine ⟨hp, ?_⟩
    simp only [step, hs, stepExprTime, (isDigit_ne hb).1, hb, hneg, if_true, if_false]
    by_cases hfit : -2 ^ 31 ≤ p.exprtime - digitVal b
    · rw [Int.bmod_eq_of_le (by omega) (by omega), if_neg (by omega)]
      refine .inr ⟨_, rfl, ih rfl hp rfl (fun c hc => hd c (by simp [hc])) ?_ hfit ?_⟩
      · change p.exprtime - digitVal b ≤ 0
        omega
      · change p.exprtime - digitVal b - digitSum ds < -2 ^ 31
        omega
    · have hwrap : (p.exprtime - digitVal b).bmod (2 ^ 32) > p.exprtime := by
        rw [Int.bmod_def]
        split <;> omega
      exact .inl ⟨_, if_pos hwrap⟩

end Parser

/-- Decimal notation with a sign. -/
def signedDecimal (n : Int) : Bytes :=
  if n < 0 then byte '-' :: decimal n.natAbs else decimal n.natAbs

/-- What the parser makes of an expiration time: the sum of its digits, with the sign. -/
def parsedExpire (n : Int) : Int :=
  if n < 0 then -Parser.digitSum (decimal n.natAbs) else Parser.digitSum (decimal n.natAbs)

/-- The sum of the digits is an `int32_t`. -/
def ExpireFits (n : Int) : Prop := -2 ^ 31 ≤ parsedExpire n ∧ parsedExpire n < 2 ^ 31

instance (n : Int) : Decidable (ExpireFits n) := inferInstanceAs (Decidable (_ ∧ _))

theorem Parser.reads_exprTime {p : Parser} (hs : p.state = .spExprTimeStart)
    (hp : p.parseComplete = false) (hneg : p.negative = false) (h0 : p.exprtime = 0) {n : Int}
    (h : ExpireFits n) :
    Reads p (signedDecimal n)
      { p with state := .spExprTime, negative := decide (n < 0), exprtime := parsedExpire n } := by
  have hdigits := decimal_isDigit n.natAbs
  obtain ⟨hmin, hmax⟩ := h
  by_cases hn : n < 0
  · simp only [parsedExpire, hn, if_true] at hmin
    have hfirst : p.step 0 (byte '-') = .ok { p with state := .spExprTime, negative := true } := by
      simp [step, hs, stepExprTimeStart]
    have hrest := reads_expired (p := { p with state := .spExprTime, negative := true }) rfl hp rfl
      hdigits h0 (by omega)
    simp only [signedDecimal, parsedExpire, hn, if_true, decide_true]
    exact ⟨hp, _, hfirst, hrest⟩
  · obtain ⟨d, ds, hds⟩ := List.exists_cons_of_ne_nil (decimal_ne_nil n.natAbs)
    simp only [parsedExpire, hn, if_false] at hmax
    simp only [signedDecimal, parsedExpire, hn, if_false, decide_false]
    rw [hds] at hdigits hmax ⊢
    rw [digitSum_cons] at hmax
    have hd := hdigits d (by simp)
    have hfirst : p.step 0 d = .ok { p with state := .spExprTime, exprtime := digitVal d } := by
      simp [step, hs, stepExprTimeStart, (isDigit_ne hd).2.2, hd]
    have hrest := reads_expiring (p := { p with state := .spExprTime, exprtime := digitVal d }) ds rfl
      hp hneg (fun b hb => hdigits b (by simp [hb])) (by simp) (by
        change (digitVal d : Int) + digitSum ds < 2 ^ 31
        omega)
    refine ⟨hp, _, hfirst, ?_⟩
    rw [digitSum_cons, Nat.cast_add, ← hneg]
    exact hrest

theorem Parser.throws_exprTime {p : Parser} (hs : p.state = .spExprTimeStart)
    (hp : p.parseComplete = false) (hneg : p.negative = false) (h0 : p.exprtime = 0) {n : Int}
    (h : ¬ ExpireFits n) : Throws p (signedDecimal n) := by
  have hdigits := decimal_isDigit n.natAbs
  by_cases hn : n < 0
  · have hfirst : p.step 0 (byte '-') = .ok { p with state := .spExprTime, negative := true } := by
      simp [step, hs, stepExprTimeStart]
    simp only [ExpireFits, parsedExpire, hn, if_true] at h
    simp only [signedDecimal, hn, if_true]
    refine ⟨hp, .inr ⟨_, hfirst, throws_expired rfl hp rfl hdigits ?_ ?_ ?_⟩⟩
    · exact le_of_eq h0
    · change -2 ^ 31 ≤ p.exprtime
      omega
    · change p.exprtime - digitSum (decimal n.natAbs) < -2 ^ 31
      omega
  · obtain ⟨d, ds, hds⟩ := List.exists_cons_of_ne_nil (decimal_ne_nil n.natAbs)
    simp only [ExpireFits, parsedExpire, hn, if_false] at h
    simp only [signedDecimal, hn, if_false]
    rw [hds] at hdigits h ⊢
    rw [digitSum_cons] at h
    have hd := hdigits d (by simp)
    have hval := digitVal_lt d
    have hfirst : p.step 0 d = .ok { p with state := .spExprTime, exprtime := digitVal d } := by
      simp [step, hs, stepExprTimeStart, (isDigit_ne hd).2.2, hd]
    refine ⟨hp, .inr ⟨_, hfirst, throws_expiring rfl hp hneg (fun b hb => hdigits b (by simp [hb]))
      ?_ ?_ ?_⟩⟩
    · exact Int.natCast_nonneg _
    · change (digitVal d : Int) < 2 ^ 31
      omega
    · change 2 ^ 31 ≤ (digitVal d : Int) + digitSum ds
      omega

/-- The storing requests the parser knows commands for. -/
inductive Verb where
  | set | add | append

def Verb.name : Verb → Bytes
  | set => text "set"
  | add => text "add"
  | append => text "append"

theorem Verb.name_plain (verb : Verb) : ∀ b ∈ verb.name, b ≠ byte ' ' ∧ b ≠ byte '\r' := by
  apply forall_of_all
  cases verb <;> decide

def Verb.command : Verb → InsertCommand → Command
  | set => .set
  | add => .add
  | append => .append

inductive Request where
  | store (verb : Verb) (key : Bytes) (flags : Nat) (exptime : Int) (body : Bytes)
  | get (keys : List Bytes)
  | stats

/-- A key as the protocol allows it. -/
def KeyWellFormed (key : Bytes) : Prop :=
  key ≠ [] ∧ ∀ b ∈ key, b ≠ byte ' ' ∧ b ≠ byte '\r' ∧ b ≠ byte '\n'

instance (key : Bytes) : Decidable (KeyWellFormed key) :=
  have : Decidable (∀ b ∈ key, b ≠ byte ' ' ∧ b ≠ byte '\r' ∧ b ≠ byte '\n') :=
    List.decidableBAll _ _
  inferInstanceAs (Decidable (_ ∧ _))

namespace Request

def WellFormed : Request → Prop
  | store _ key flags _ body =>
    KeyWellFormed key ∧ flags < 2 ^ 32 ∧ body.length < 2 ^ 32
  | get keys => keys ≠ [] ∧ ∀ key ∈ keys, KeyWellFormed key
  | stats => True

instance : ∀ r : Request, Decidable r.WellFormed
  | store _ _ _ _ _ => inferInstanceAs (Decidable (_ ∧ _))
  | get _ => inferInstanceAs (Decidable (_ ∧ _))
  | stats => inferInstanceAs (Decidable True)

/-- The request line. -/
def header : Request → Bytes
  | store verb key flags exptime body =>
    verb.name ++ text " " ++ key ++ text " " ++ decimal flags ++ text " " ++ signedDecimal exptime ++
      text " " ++ decimal body.length ++ crlf
  | get keys => text "get" ++ keys.flatMap (fun key => text " " ++ key) ++ crlf
  | stats => text "stats" ++ crlf

/-- The data block and its delimiter. -/
def data : Request → Bytes
  | store _ _ _ _ body => body ++ crlf
  | get _ | stats => []

def encode (r : Request) : Bytes := r.header ++ r.data

/-- The command the parser builds. -/
def command : Request → Command
  | store verb key flags exptime _ => verb.command ⟨key, flags, parsedExpire exptime⟩
  | get keys => .get keys
  | stats => .stats

def bodySize : Request → Nat
  | store _ _ _ _ body => body.length
  | get _ | stats => 0

/-- A storing request comes with a data block that is not empty. -/
def HasBody : Request → Prop
  | store _ _ _ _ body => body ≠ []
  | get _ | stats => True

instance : ∀ r : Request, Decidable r.HasBody
  | store _ _ _ _ _ => inferInstanceAs (Decidable (_ ≠ _))
  | get _ | stats => inferInstanceAs (Decidable True)

/-- The digits of its expiration time, if any, add up to an `int32_t`. -/
def Expires : Request → Prop
  | store _ _ _ exptime _ => ExpireFits exptime
  | get _ | stats => True

instance : ∀ r : Request, Decidable r.Expires
  | store _ _ _ exptime _ => inferInstanceAs (Decidable (ExpireFits exptime))
  | get _ | stats => inferInstanceAs (Decidable True)

def kind : Request → Kind
  | store .set _ _ _ _ => .set
  | store .add _ _ _ _ => .add
  | store .append _ _ _ _ => .append
  | get _ => .get
  | stats => .stats

def keys : Request → List Bytes
  | store _ key _ _ _ => [key]
  | get keys => keys
  | stats => []

theorem command_kind (r : Request) : r.command.kind = r.kind := by
  cases r with
  | store verb => cases verb <;> rfl
  | get keys => rfl
  | stats => rfl

theorem command_keys (r : Request) : r.command.keys = r.keys := by
  cases r with
  | store verb => cases verb <;> rfl
  | get keys => rfl
  | stats => rfl

end Request

namespace Parser

variable {p : Parser}

/-- The fields of a parser that has been reset. -/
structure Fresh (p : Parser) : Prop where
  state : p.state = .sName
  name : p.name = []
  keys : p.keys = []
  curKey : p.curKey = []
  flags : p.flags = 0
  bytes : p.bytes = 0
  exprtime : p.exprtime = 0
  incomplete : p.parseComplete = false

theorem fresh_reset (p : Parser) : p.reset.Fresh := ⟨rfl, rfl, rfl, rfl, rfl, rfl, rfl, rfl⟩

theorem fresh_create (negative : Bool) : (create negative).Fresh := fresh_reset _

theorem step_verb (verb : Verb) (hs : p.state = .sName) (hn : p.name = verb.name) :
    p.step 0 (byte ' ') = .ok { p with state := .spKey } := by
  cases verb <;> simp [step, hs, stepName, hn, Verb.name]

/-- The line of a storing request, up to its flags. -/
theorem reads_key (h : p.Fresh) (verb : Verb) {key : Bytes} (hk : KeyWellFormed key) :
    Reads p (verb.name ++ text " " ++ key ++ text " ")
      { p with state := .spFlags, name := verb.name, keys := [key], curKey := key } := by
  obtain ⟨hs, hname, hkeys, hcur, -, -, -, hp⟩ := h
  let p1 := { p with name := verb.name }
  let p2 := { p1 with state := .spKey, curKey := key }
  have h1 : Reads p verb.name p1 := reads_name hs hp hname verb.name verb.name_plain
  have h2 : Reads { p1 with state := .spKey } key p2 :=
    reads_putKey (p := { p1 with state := .spKey }) rfl hp hcur key fun b hb => (hk.2 b hb).1
  have s1 : p1.step 0 (byte ' ') = .ok { p1 with state := .spKey } := step_verb verb hs rfl
  have s2 : p2.step 0 (byte ' ') = .ok { p2 with state := .spFlags, keys := [key] } := by
    simp [p2, p1, step, stepPutKey, hkeys]
  exact ((h1.append (.one hp s1)).append h2).append (.one hp s2)

/-- The line of a storing request, up to its expiration time. -/
theorem reads_insert (h : p.Fresh) (verb : Verb) {key flags : Bytes} (hk : KeyWellFormed key)
    (hd : ∀ b ∈ flags, isDigit b = true) (hf : ¬Falls 0 flags) :
    Reads p (verb.name ++ text " " ++ key ++ text " " ++ flags ++ text " ")
      { p with
        state := .spExprTimeStart, name := verb.name, keys := [key]
        flags := ofDigits 0 flags % 2 ^ 32, negative := false, curKey := key } := by
  have h2 := reads_key h verb hk
  have hp := h.incomplete
  let p2 := { p with state := .spFlags, name := verb.name, keys := [key], curKey := key }
  let p3 := { p2 with flags := ofDigits 0 flags % 2 ^ 32 }
  have h3 : Reads p2 flags p3 := reads_number .flags 0 (p := p2) rfl hp h.flags hd hf
  have s3 : p3.step 0 (byte ' ') =
      .ok { p3 with state := .spExprTimeStart, negative := false } := rfl
  exact (h2.append h3).append (.one hp s3)

/-- The line of a storing request, up to the number of bytes. -/
theorem reads_expire (h : p.Fresh) (verb : Verb) {key flags : Bytes} {exptime : Int}
    (hk : KeyWellFormed key) (hd : ∀ b ∈ flags, isDigit b = true) (hf : ¬Falls 0 flags)
    (he : ExpireFits exptime) :
    Reads p (verb.name ++ text " " ++ key ++ text " " ++ flags ++ text " " ++
        signedDecimal exptime ++ text " ")
      { p with
        state := .spBytes, name := verb.name, keys := [key], flags := ofDigits 0 flags % 2 ^ 32
        exprtime := parsedExpire exptime, negative := decide (exptime < 0), curKey := key } := by
  have h3 := reads_insert h verb hk hd hf
  let p3 := { p with
    state := .spExprTimeStart, name := verb.name, keys := [key]
    flags := ofDigits 0 flags % 2 ^ 32, negative := false, curKey := key }
  let p4 := { p3 with
    state := .spExprTime, negative := decide (exptime < 0), exprtime := parsedExpire exptime }
  have h4 : Reads p3 (signedDecimal exptime) p4 :=
    reads_exprTime (p := p3) rfl h.incomplete rfl h.exprtime he
  have s4 : p4.step 0 (byte ' ') = .ok { p4 with state := .spBytes } := rfl
  exact (h3.append h4).append (.one h.incomplete s4)

/-- The line of a storing request. -/
theorem reads_store (h : p.Fresh) (verb : Verb) {key flags bytes : Bytes} {exptime : Int}
    (hk : KeyWellFormed key) (hd : ∀ b ∈ flags, isDigit b = true) (hf : ¬Falls 0 flags)
    (he : ExpireFits exptime) (hd' : ∀ b ∈ bytes, isDigit b = true) (hf' : ¬Falls 0 bytes) :
    Reads p (verb.name ++ text " " ++ key ++ text " " ++ flags ++ text " " ++
        signedDecimal exptime ++ text " " ++ bytes ++ crlf)
      { p with
        state := .sLF, name := verb.name, keys := [key], flags := ofDigits 0 flags % 2 ^ 32
        exprtime := parsedExpire exptime, bytes := ofDigits 0 bytes % 2 ^ 32
        negative := decide (exptime < 0), curKey := key, parseComplete := true } := by
  have h4 := reads_expire h verb hk hd hf he
  have hp := h.incomplete
  let p4 := { p with
    state := .spBytes, name := verb.name, keys := [key], flags := ofDigits 0 flags % 2 ^ 32
    exprtime := parsedExpire exptime, negative := decide (exptime < 0), curKey := key }
  let p5 := { p4 with bytes := ofDigits 0 bytes % 2 ^ 32 }
  have h5 : Reads p4 bytes p5 := reads_number .bytes 0 (p := p4) rfl hp h.bytes hd' hf'
  have s5 : Reads p5 crlf { p5 with state := .sLF, parseComplete := true } :=
    ⟨hp, { p5 with state := .sLF }, rfl, hp, _, rfl, rfl⟩
  exact (h4.append h5).append s5

/-- The keys of a retrieval line, from behind the space after the command. -/
theorem reads_keys (hs : p.state = .sgKey) (hp : p.parseComplete = false) (hc : p.curKey = [])
    (key : Bytes) (keys : List Bytes)
    (h : ∀ k ∈ key :: keys, ∀ b ∈ k, b ≠ byte ' ' ∧ b ≠ byte '\r') :
    Reads p (key ++ keys.flatMap (fun k => text " " ++ k) ++ text "\r")
      { p with state := .sLF, keys := p.keys ++ key :: keys } := by
  induction keys generalizing p key with
  | nil =>
    have hkey := reads_getKey hs hp hc key (h key (by simp))
    have hlast : { p with curKey := key }.step 0 (byte '\r') =
        .ok { p with state := .sLF, keys := p.keys ++ [key] } := by
      simp [step, hs, stepGetKey, hc]
    simpa [text] using hkey.append (.one hp hlast)
  | cons next keys ih =>
    have hkey := reads_getKey hs hp hc key (h key (by simp))
    have hspace : { p with curKey := key }.step 0 (byte ' ') =
        .ok { p with keys := p.keys ++ [key] } := by
      simp only [step, hs, stepGetKey, hc]
      rw [if_neg (by decide), if_pos trivial]
    have hrest := ih (p := { p with keys := p.keys ++ [key] }) hs hp hc next
      fun k hk => h k (by simp at hk; simp [hk])
    have hr := (hkey.append (.one hp hspace)).append hrest
    simpa [text] using hr

theorem build_verb (verb : Verb) (hs : p.state = .sLF) (hn : p.name = verb.name) :
    p.build = p.buildInsert verb.command := by
  cases verb <;> simp only [build, hs, hn, Verb.name]
  · rw [if_neg (by decide), if_pos trivial]
    rfl
  · rw [if_neg (by decide), if_neg (by decide), if_pos trivial]
    rfl
  · rw [if_neg (by decide), if_neg (by decide), if_neg (by decide), if_pos trivial]
    rfl

theorem build_get (hs : p.state = .sLF) (hn : p.name = text "get") :
    p.build = .command (.get p.keys) p.bytes := by
  simp only [build, hs, hn]
  rw [if_neg (by decide), if_neg (by decide), if_neg (by decide), if_neg (by decide), if_pos trivial]

theorem build_stats (hs : p.state = .sLF) (hn : p.name = text "stats") :
    p.build = .command .stats p.bytes := by
  simp only [build, hs, hn]
  rw [if_neg (by decide), if_neg (by decide), if_neg (by decide), if_neg (by decide),
    if_neg (by decide), if_pos trivial]

/-- A retrieval line. Its keys may be empty and may hold any byte but a space and a CR. -/
theorem reads_get (h : p.Fresh) {keys : List Bytes} (hne : keys ≠ [])
    (hk : ∀ k ∈ keys, ∀ b ∈ k, b ≠ byte ' ' ∧ b ≠ byte '\r') :
    ∃ q, Reads p (Request.get keys).header q ∧ q.parseComplete = true ∧
      q.build = .command (.get keys) 0 := by
  obtain ⟨hs, hname, hkeys, hcur, -, hbytes, -, hp⟩ := h
  obtain ⟨key, keys, rfl⟩ := List.exists_cons_of_ne_nil hne
  let p1 := { p with name := text "get" }
  let p2 := { p1 with state := .sLF, keys := p.keys ++ key :: keys }
  have h1 : Reads p (text "get") p1 := reads_name hs hp hname _ (forall_of_all (by decide))
  have s1 : p1.step 0 (byte ' ') = .ok { p1 with state := .sgKey } := by
    simp only [p1, step, hs, stepName]
    rw [if_pos (by decide), if_neg (by decide), if_pos (by decide)]
  have h2 : Reads { p1 with state := .sgKey }
      (key ++ keys.flatMap (fun k => text " " ++ k) ++ text "\r") p2 :=
    reads_keys (p := { p1 with state := .sgKey }) rfl hp hcur key keys hk
  have s2 : p2.step 0 (byte '\n') = .ok { p2 with parseComplete := true } := rfl
  have hline := ((h1.append (.one hp s1)).append h2).append (.one hp s2)
  have hbuild : { p2 with parseComplete := true }.build =
      .command (.get (p.keys ++ key :: keys)) p.bytes := build_get rfl rfl
  refine ⟨_, by simpa [Request.header, text, crlf] using hline, rfl, hbuild.trans ?_⟩
  rw [hkeys, hbytes]
  rfl

/-- The line of a well-formed request completes the parser, which builds its command. -/
theorem reads_header (h : p.Fresh) {r : Request} (hr : r.WellFormed) (he : r.Expires) :
    ∃ q, Reads p r.header q ∧ q.parseComplete = true ∧ q.build = .command r.command r.bodySize := by
  cases r with
  | store verb key flags exptime body =>
    obtain ⟨hk, hf, hn⟩ := hr
    obtain ⟨hff, hfv⟩ := decimal_of_fits hf
    obtain ⟨hnf, hnv⟩ := decimal_of_fits hn
    have hline := reads_store h verb hk (decimal_isDigit _) hff he (decimal_isDigit _) hnf
    rw [hfv, hnv] at hline
    exact ⟨_, hline, rfl, build_verb verb rfl rfl⟩
  | get keys =>
    obtain ⟨hne, hk⟩ := hr
    exact reads_get h hne fun k hm b hb => ⟨((hk k hm).2 b hb).1, ((hk k hm).2 b hb).2.1⟩
  | stats =>
    obtain ⟨hs, hname, -, -, -, hbytes, -, hp⟩ := h
    let p1 := { p with name := text "stats" }
    have h1 : Reads p (text "stats") p1 := reads_name hs hp hname _ (forall_of_all (by decide))
    have s1 : p1.step 0 (byte '\r') = .ok { p1 with state := .sLF } := by
      simp only [p1, step, hs, stepName]
      rw [if_pos (by decide), if_neg (by decide), if_neg (by decide), if_pos trivial]
    have s2 : Parser.step { p1 with state := .sLF } 0 (byte '\n') =
        .ok { p1 with state := .sLF, parseComplete := true } := rfl
    have hbuild : Parser.build { p1 with state := .sLF, parseComplete := true } =
        .command .stats p.bytes := build_stats rfl rfl
    refine ⟨_, (h1.append (.one hp s1)).append (.one hp s2), rfl, hbuild.trans ?_⟩
    rw [hbytes]
    rfl

/-- The line of a request with an expiration time that overflows. -/
theorem throws_header (h : p.Fresh) {r : Request} (hr : r.WellFormed) (he : ¬ r.Expires) :
    Throws p r.header := by
  cases r with
  | store verb key flags exptime body =>
    obtain ⟨hk, hf, -⟩ := hr
    obtain ⟨hff, hfv⟩ := decimal_of_fits hf
    have hline := reads_insert h verb hk (decimal_isDigit _) hff
    rw [hfv] at hline
    let p3 := { p with
      state := .spExprTimeStart, name := verb.name, keys := [key], flags := flags
      negative := false, curKey := key }
    have hthrows : Throws p3 (signedDecimal exptime) :=
      throws_exprTime (p := p3) rfl h.incomplete rfl h.exprtime he
    have ht := hline.throws hthrows
    exact ((ht.append (text " ")).append (decimal body.length)).append crlf
  | get keys => exact absurd trivial he
  | stats => exact absurd trivial he

end Parser

end Sysprog.Protocol
