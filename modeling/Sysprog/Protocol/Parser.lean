import Sysprog.Execute.Command

namespace Sysprog.Protocol

open Execute

inductive State where
  | sCR | sLF | sName | spKey | spFlags | spExprTimeStart | spExprTime | spBytes | sgKey
  deriving DecidableEq

/-- The exceptions of the parser and of the connections over it. -/
inductive Error where
  | unknownCommandName (name : Bytes)
  | noKey
  | flagsOverflow
  | exprTimeOverflow
  | bytesOverflow
  | invalidChar (c : UInt8) (position : Nat)
  | unknownState
  | unsupportedCommand
  | sendFailed
  /-- `strerror(errno)` after `read` has returned -1. -/
  | readFailed (strerror : Bytes)
  /-- No exception: `keys[0]` of an empty vector. -/
  | undefined
  deriving DecidableEq

/-- A `char`, which is signed, as an integer in a stream. -/
def charText (c : UInt8) : Bytes :=
  if c < 128 then decimal c.toNat else text "-" ++ decimal (256 - c.toNat)

/-- `what()`. -/
def Error.what : Error → Bytes
  | unknownCommandName name => text "Unknown command name: " ++ name
  | noKey => text "Client provides no key to retrive"
  | flagsOverflow => text "Flags field overflow"
  | exprTimeOverflow => text "Expire time field overflow"
  | bytesOverflow => text "Bytes field overflow"
  | invalidChar c position =>
    text "Invalid char " ++ charText c ++ text " at position " ++ decimal position ++
      text ", \\n expected"
  | unknownState => text "Unknown state"
  | unsupportedCommand => text "Unsupported command"
  | sendFailed => text "Failed to send response"
  | readFailed strerror => strerror
  | undefined => []

structure Parser where
  state : State
  name : Bytes
  keys : List Bytes
  /-- `uint32_t`. -/
  flags : Nat
  /-- `int32_t`. -/
  exprtime : Int
  /-- `uint32_t`. -/
  bytes : Nat
  negative : Bool
  curKey : Bytes
  parseComplete : Bool
  deriving DecidableEq

namespace Parser

/-- `Reset`. It leaves `negative` alone. -/
def reset (p : Parser) : Parser :=
  { p with
    state := .sName, name := [], keys := [], curKey := [], parseComplete := false
    flags := 0, bytes := 0, exprtime := 0 }

/-- The constructor. The memory of `negative` holds anything at that point. -/
def create (negative : Bool) : Parser := reset ⟨.sName, [], [], 0, 0, 0, negative, [], false⟩

/-- `uint32_t` arithmetic for one more digit. -/
def pushDigit (field : Nat) (c : UInt8) : Nat := (field * 10 + digitVal c) % 2 ^ 32

/-- `sName`. -/
def stepName (p : Parser) (c : UInt8) : Except Error Parser :=
  if c = byte ' ' ∨ c = byte '\r' then
    if p.name = text "set" ∨ p.name = text "add" ∨ p.name = text "append" ∨ p.name = text "prepend" then
      .ok { p with state := .spKey }
    else if p.name = text "get" ∨ p.name = text "gets" then .ok { p with state := .sgKey }
    else if p.name = text "stats" then .ok { p with state := .sLF }
    else .error (.unknownCommandName p.name)
  else .ok { p with name := p.name ++ [c] }

/-- `spKey`. `curKey` is not cleared. -/
def stepPutKey (p : Parser) (c : UInt8) : Except Error Parser :=
  if c = byte ' ' then .ok { p with state := .spFlags, keys := p.keys ++ [p.curKey] }
  else .ok { p with curKey := p.curKey ++ [c] }

/-- `sgKey`. -/
def stepGetKey (p : Parser) (c : UInt8) : Except Error Parser :=
  if c = byte '\r' then
    let keys := p.keys ++ [p.curKey]
    if keys.length = 0 then .error .noKey else .ok { p with state := .sLF, keys := keys, curKey := [] }
  else if c = byte ' ' then .ok { p with state := .sgKey, keys := p.keys ++ [p.curKey], curKey := [] }
  else .ok { p with curKey := p.curKey ++ [c] }

/-- `spFlags`. -/
def stepFlags (p : Parser) (c : UInt8) : Except Error Parser :=
  if c = byte ' ' then .ok { p with state := .spExprTimeStart, negative := false }
  else if isDigit c then
    let f := pushDigit p.flags c
    if f < p.flags then .error .flagsOverflow else .ok { p with flags := f }
  else .ok p

/-- `spExprTimeStart`. -/
def stepExprTimeStart (p : Parser) (c : UInt8) : Except Error Parser :=
  if c = byte '-' then .ok { p with state := .spExprTime, negative := true }
  else if isDigit c then .ok { p with state := .spExprTime, exprtime := digitVal c }
  else .ok p

/-- `spExprTime`. Digits are added up; `int32_t` wraps around. -/
def stepExprTime (p : Parser) (c : UInt8) : Except Error Parser :=
  if c = byte ' ' then .ok { p with state := .spBytes }
  else if isDigit c then
    if p.negative then
      let et := (p.exprtime - digitVal c).bmod (2 ^ 32)
      if et > p.exprtime then .error .exprTimeOverflow else .ok { p with exprtime := et }
    else
      let et := (p.exprtime + digitVal c).bmod (2 ^ 32)
      if et < p.exprtime then .error .exprTimeOverflow else .ok { p with exprtime := et }
  else .ok p

/-- `spBytes`. -/
def stepBytes (p : Parser) (c : UInt8) : Except Error Parser :=
  if c = byte '\r' then .ok { p with state := .sLF }
  else if isDigit c then
    let b := pushDigit p.bytes c
    if b < p.bytes then .error .bytesOverflow else .ok { p with bytes := b }
  else .ok p

/-- `sLF`. -/
def stepLF (p : Parser) (pos : Nat) (c : UInt8) : Except Error Parser :=
  if c = byte '\n' then .ok { p with parseComplete := true } else .error (.invalidChar c pos)

/-- The `switch` of `Parse` on the byte at index `pos` of its input. -/
def step (p : Parser) (pos : Nat) (c : UInt8) : Except Error Parser :=
  match p.state with
  | .sName => p.stepName c
  | .spKey => p.stepPutKey c
  | .sgKey => p.stepGetKey c
  | .spFlags => p.stepFlags c
  | .spExprTimeStart => p.stepExprTimeStart c
  | .spExprTime => p.stepExprTime c
  | .spBytes => p.stepBytes c
  | .sLF => p.stepLF pos c
  | .sCR => .error .unknownState

/-- How `Parse` leaves: the parser, the number of bytes it has got through, which is `parsed`
unless it throws, and the exception. -/
structure Parsed where
  parser : Parser
  pos : Nat
  error : Option Error

def parseLoop (p : Parser) (pos : Nat) : Bytes → Parsed
  | [] => ⟨p, pos, none⟩
  | c :: input =>
    if p.parseComplete then ⟨p, pos, none⟩
    else
      match p.step pos c with
      | .error e => ⟨p, pos, some e⟩
      | .ok p' => parseLoop p' (pos + 1) input

/-- `Parse`; the flag it returns is `parseComplete`. -/
def parse (p : Parser) (input : Bytes) : Parsed := p.parseLoop 0 input

/-- The ways `Build` leaves. -/
inductive Built where
  | null
  | command (c : Command) (bodySize : Nat)
  | thrown (e : Error)
  deriving DecidableEq

/-- Construction of a storing command from `keys[0]`. -/
def buildInsert (p : Parser) (command : InsertCommand → Command) : Built :=
  match p.keys with
  | [] => .thrown .undefined
  | key :: _ => .command (command ⟨key, p.flags, p.exprtime⟩) p.bytes

def build (p : Parser) : Built :=
  if p.state ≠ .sLF then .null
  else if p.name = text "set" then p.buildInsert .set
  else if p.name = text "add" then p.buildInsert .add
  else if p.name = text "append" then p.buildInsert .append
  else if p.name = text "get" then .command (.get p.keys) p.bytes
  else if p.name = text "stats" then .command .stats p.bytes
  else .thrown .unsupportedCommand

end Parser

/-- Positions count from the start of the input of one `Parse`. -/
def Error.shift (n : Nat) : Error → Error
  | invalidChar c position => invalidChar c (position + n)
  | e => e

/-- The exception without the position in its text. -/
def Error.unplaced : Error → Error
  | invalidChar c _ => invalidChar c 0
  | e => e

@[simp] theorem Error.unplaced_shift (n : Nat) (e : Error) : (e.shift n).unplaced = e.unplaced := by
  cases e <;> rfl

theorem Error.shift_shift (m n : Nat) (e : Error) : (e.shift m).shift n = e.shift (m + n) := by
  cases e <;> simp [shift, Nat.add_assoc]

namespace Parser

variable {p p' : Parser} {c : UInt8} {e : Error}

/-- Nothing but the text of an exception depends on where a byte stands in the input. -/
theorem step_pos (p : Parser) (pos : Nat) (c : UInt8) :
    p.step pos c = (p.step 0 c).mapError (Error.shift pos) := by
  cases hs : p.state
  case sCR => simp [step, hs, Except.mapError, Error.shift]
  case sLF =>
    simp only [step, hs, stepLF]
    split_ifs <;> simp [Except.mapError, Error.shift]
  all_goals
    simp only [step, hs, stepName, stepPutKey, stepGetKey, stepFlags, stepExprTimeStart,
      stepExprTime, stepBytes]
    split_ifs <;> rfl

theorem step_pos_ok (pos : Nat) (h : p.step 0 c = .ok p') : p.step pos c = .ok p' := by
  rw [step_pos, h]
  rfl

theorem step_pos_error (pos : Nat) (h : p.step 0 c = .error e) :
    p.step pos c = .error (e.shift pos) := by
  rw [step_pos, h]
  rfl

/-- At the start of the input the position in the text is 0. -/
theorem step_unplaced (h : p.step 0 c = .error e) : e.unplaced = e := by
  cases hst : p.state
  case sCR =>
    simp only [step, hst] at h
    cases h
    rfl
  all_goals
    simp only [step, hst, stepName, stepPutKey, stepGetKey, stepFlags, stepExprTimeStart,
      stepExprTime, stepBytes, stepLF] at h
    split_ifs at h <;> cases h <;> rfl

theorem parseLoop_pos (p : Parser) (pos : Nat) (input : Bytes) :
    p.parseLoop pos input =
      ⟨(p.parse input).parser, (p.parse input).pos + pos, (p.parse input).error.map (Error.shift pos)⟩ := by
  -- the two loops are at different positions from the second byte on
  suffices h : ∀ m, p.parseLoop (m + pos) input =
      ⟨(p.parseLoop m input).parser, (p.parseLoop m input).pos + pos,
        (p.parseLoop m input).error.map (Error.shift pos)⟩ by
    simpa [parse] using h 0
  intro m
  induction input generalizing p m with
  | nil => rfl
  | cons c input ih =>
    cases hp : p.parseComplete with
    | true => simp [parseLoop, hp]
    | false =>
      cases hs : p.step 0 c with
      | error e =>
        simp only [parseLoop, hp, Bool.false_eq_true, if_false, step_pos_error _ hs, Option.map_some,
          Error.shift_shift]
      | ok p' =>
        simp only [parseLoop, hp, Bool.false_eq_true, if_false, step_pos_ok _ hs]
        rw [← ih p' (m + 1), Nat.add_right_comm]

theorem parse_of_complete (h : p.parseComplete = true) (input : Bytes) :
    p.parse input = ⟨p, 0, none⟩ := by
  cases input <;> simp [parse, parseLoop, h]

theorem parse_cons_error (hp : p.parseComplete = false) (h : p.step 0 c = .error e) (input : Bytes) :
    p.parse (c :: input) = ⟨p, 0, some e⟩ := by
  simp [parse, parseLoop, hp, h]

theorem parse_cons_ok (hp : p.parseComplete = false) (h : p.step 0 c = .ok p') (input : Bytes) :
    p.parse (c :: input) = ⟨(p'.parse input).parser, (p'.parse input).pos + 1,
      (p'.parse input).error.map (Error.shift 1)⟩ := by
  rw [parse, parseLoop, hp, if_neg (by simp), h]
  exact parseLoop_pos p' 1 input

/-- What a parser guarantees at every point of a run: a completed header ends in `sLF`, and a
header past its first key has a key, but for `stats`. -/
structure Sound (p : Parser) : Prop where
  complete : p.parseComplete = true → p.state = .sLF
  keyed : p.state ∈ [State.spFlags, .spExprTimeStart, .spExprTime, .spBytes] → p.keys ≠ []
  line : p.state = .sLF → p.name = text "stats" ∨ p.keys ≠ []

theorem sound_reset (p : Parser) : p.reset.Sound :=
  ⟨by simp [reset], by simp [reset], by simp [reset]⟩

theorem sound_create (negative : Bool) : (create negative).Sound := sound_reset _

theorem step_sound (h : p.Sound) (hp : p.parseComplete = false) {pos : Nat}
    (hs : p.step pos c = .ok p') : p'.Sound := by
  have hkeyed := h.keyed
  have hline := h.line
  cases hst : p.state
  case sCR => simp [step, hst] at hs
  all_goals
    simp only [step, hst, stepName, stepPutKey, stepGetKey, stepFlags, stepExprTimeStart,
      stepExprTime, stepBytes, stepLF] at hs
    split_ifs at hs <;> cases hs <;> constructor <;> simp_all

theorem buildInsert_of_keys (command : InsertCommand → Command) (h : p.keys ≠ []) :
    ∃ cmd, p.buildInsert command = .command cmd p.bytes := by
  obtain ⟨key, keys, hk⟩ := List.exists_cons_of_ne_nil h
  exact ⟨command ⟨key, p.flags, p.exprtime⟩, by simp [buildInsert, hk]⟩

/-- What every byte keeps, a call keeps, also one that throws. -/
theorem parse_invariant (Inv : Parser → Prop)
    (hstep : ∀ p q c, Inv p → p.parseComplete = false → p.step 0 c = .ok q → Inv q) (h : Inv p)
    (input : Bytes) : Inv (p.parse input).parser := by
  induction input generalizing p with
  | nil => exact h
  | cons c input ih =>
    cases hp : p.parseComplete with
    | true => rw [parse_of_complete hp]; exact h
    | false =>
      cases hs : p.step 0 c with
      | error e => rw [parse_cons_error hp hs]; exact h
      | ok p' => rw [parse_cons_ok hp hs]; exact ih (hstep p p' c h hp hs)

theorem parse_sound (h : p.Sound) (input : Bytes) : (p.parse input).parser.Sound :=
  parse_invariant Sound (fun _ _ _ h hp hs => step_sound h hp hs) h input

/-- `Parse` always takes a byte, unless it throws. -/
theorem parse_pos_pos (hp : p.parseComplete = false) {input : Bytes} (hi : input ≠ [])
    (he : (p.parse input).error = none) : 0 < (p.parse input).pos := by
  obtain ⟨c, input, rfl⟩ := List.exists_cons_of_ne_nil hi
  cases hs : p.step 0 c with
  | error e => simp [parse_cons_error hp hs] at he
  | ok p' =>
    rw [parse_cons_ok hp hs]
    exact Nat.succ_pos _

/-- `Parse` takes all bytes of an input that does not complete the header. -/
theorem parse_pos_of_incomplete (p : Parser) (input : Bytes) (he : (p.parse input).error = none)
    (hc : (p.parse input).parser.parseComplete = false) : (p.parse input).pos = input.length := by
  induction input generalizing p with
  | nil => rfl
  | cons c input ih =>
    cases hp : p.parseComplete with
    | true => simp [parse_of_complete hp, hp] at hc
    | false =>
      cases hs : p.step 0 c with
      | error e => simp [parse_cons_error hp hs] at he
      | ok p' =>
        rw [parse_cons_ok hp hs] at he hc ⊢
        have hn : (p'.parse input).error = none := by simpa using he
        simp [ih p' hn hc]

/-- A completed header gives a command, or an exception of the program. -/
theorem build_of_complete (h : p.Sound) (hp : p.parseComplete = true) :
    (∃ cmd, p.build = .command cmd p.bytes) ∨ p.build = .thrown .unsupportedCommand := by
  have hs := h.complete hp
  have hkeys : p.name ≠ text "stats" → p.keys ≠ [] := (h.line hs).resolve_left
  simp only [build, hs, ne_eq, not_true_eq_false, if_false]
  split_ifs with h1 h2 h3 h4 h5
  · exact .inl (buildInsert_of_keys _ (hkeys (by rw [h1]; decide)))
  · exact .inl (buildInsert_of_keys _ (hkeys (by rw [h2]; decide)))
  · exact .inl (buildInsert_of_keys _ (hkeys (by rw [h3]; decide)))
  · exact .inl ⟨_, rfl⟩
  · exact .inl ⟨_, rfl⟩
  · exact .inr rfl

end Parser

end Sysprog.Protocol
