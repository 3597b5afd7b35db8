import Sysprog.Protocol.Line

namespace Sysprog.Protocol

open Execute

/-- A space or a CR. -/
def endsName (b : UInt8) : Bool := b = byte ' ' || b = byte '\r'

def isCr (b : UInt8) : Bool := b = byte '\r'

/-- The bytes behind the last of these separators, each looked for behind the one before. -/
def behindAll : List (UInt8 → Bool) → Bytes → Option Bytes
  | [], bs => some bs
  | stop :: stops, bs =>
    match behindFirst stop bs with
    | none => none
    | some rest => behindAll stops rest

/-- The bytes up to the first space or CR. -/
def nameOf (bs : Bytes) : Bytes := bs.takeWhile fun b => !endsName b

/-- What ends the name, the fields behind it and, but for `stats`, the line. -/
def separators (name : Bytes) : List (UInt8 → Bool) :=
  if name = text "stats" then [endsName]
  else if getNames.contains name then [endsName, isCr]
  else [endsName, isSpace, isSpace, startsExpire, isSpace, isCr]

/-- What stands behind the header, whose LF is not part of it. -/
def behindHeader (bs : Bytes) : Option Bytes := behindAll (separators (nameOf bs)) bs

/-- The names of the commands that `Build` makes. -/
def builtNames : List Bytes :=
  [text "set", text "add", text "append", text "get", text "stats"]

/-- The bytes do not break off between the header and its LF, and a header that is there is one
of a command that is made. -/
def BuildsWhole (bs : Bytes) : Prop :=
  match behindHeader bs with
  | none => True
  | some rest => rest ≠ [] ∧ nameOf bs ∈ builtNames

theorem behindAll_cons (stop : UInt8 → Bool) (stops : List (UInt8 → Bool)) (b : UInt8) (bs : Bytes) :
    behindAll (stop :: stops) (b :: bs) =
      if stop b then behindAll stops bs else behindAll (stop :: stops) bs := by
  cases hb : stop b <;> simp [behindAll, behindFirst, hb]

theorem behindAll_nil {stops : List (UInt8 → Bool)} (h : stops ≠ []) : behindAll stops [] = none := by
  obtain ⟨stop, stops, rfl⟩ := List.exists_cons_of_ne_nil h
  rfl

theorem separators_ne_nil (name : Bytes) : separators name ≠ [] := by
  unfold separators
  split_ifs <;> simp

namespace Parser

variable {p p' : Parser} {b : UInt8} {bs : Bytes}

/-- The name as it is once all of `bs` has been read. -/
def wholeName (p : Parser) (bs : Bytes) : Bytes :=
  match p.state with
  | .sName => p.name ++ nameOf bs
  | _ => p.name

/-- The separators that the header still lacks when `bs` comes next. -/
def ahead (p : Parser) (bs : Bytes) : List (UInt8 → Bool) :=
  match p.state with
  | .sName => separators (p.wholeName bs)
  | .spKey => [isSpace, isSpace, startsExpire, isSpace, isCr]
  | .spFlags => [isSpace, startsExpire, isSpace, isCr]
  | .spExprTimeStart => [startsExpire, isSpace, isCr]
  | .spExprTime => [isSpace, isCr]
  | .spBytes | .sgKey | .sCR => [isCr]
  | .sLF => []

theorem ahead_of_name (h : p.state = .sName) (bs : Bytes) :
    p.ahead bs = separators (p.wholeName bs) := by
  simp only [ahead, h]

theorem ahead_ne_nil (h : p.state ≠ .sLF) (bs : Bytes) : p.ahead bs ≠ [] := by
  unfold ahead
  cases hs : p.state
  case sName => exact separators_ne_nil _
  case sLF => exact absurd hs h
  all_goals simp

/-- Behind the name. -/
theorem stepName_ahead (hs : p.state = .sName) (hb : endsName b = true)
    (h : p.step 0 b = .ok p') (bs : Bytes) :
    separators p.name = endsName :: p'.ahead bs ∧ p'.wholeName bs = p.name := by
  have hend : b = byte ' ' ∨ b = byte '\r' := by simpa [endsName] using hb
  simp only [step, hs, stepName, if_pos hend] at h
  split_ifs at h with hstore hget hstats
  · cases h
    refine ⟨?_, rfl⟩
    rcases hstore with hn | hn | hn | hn <;> rw [hn] <;> rfl
  · cases h
    refine ⟨?_, rfl⟩
    rcases hget with hn | hn <;> rw [hn] <;> rfl
  · cases h
    refine ⟨?_, rfl⟩
    rw [hstats]
    rfl

theorem stepName_stays (hs : p.state = .sName) (hb : endsName b = false)
    (h : p.step 0 b = .ok p') : p'.state = .sName ∧ p'.name = p.name ++ [b] := by
  have hend : ¬(b = byte ' ' ∨ b = byte '\r') := by simpa [endsName] using hb
  simp only [step, hs, stepName, if_neg hend] at h
  cases h
  exact ⟨rfl, rfl⟩

/-- A byte is a separator that was lacking, or nothing changes. -/
theorem step_ahead (hs : p.state ≠ .sLF) (h : p.step 0 b = .ok p') (bs : Bytes) :
    behindAll (p.ahead (b :: bs)) (b :: bs) = behindAll (p'.ahead bs) bs ∧
      p'.wholeName bs = p.wholeName (b :: bs) := by
  cases hst : p.state
  case sLF => exact absurd hst hs
  case sCR => simp [step, hst] at h
  case sName =>
    rw [ahead_of_name hst]
    cases hb : endsName b with
    | true =>
      obtain ⟨hsep, hname⟩ := stepName_ahead hst hb h bs
      have hwhole : p.wholeName (b :: bs) = p.name := by simp [wholeName, hst, nameOf, hb]
      rw [hwhole, hsep, behindAll_cons, if_pos hb]
      exact ⟨rfl, hname⟩
    | false =>
      obtain ⟨hs', hn'⟩ := stepName_stays hst hb h
      have hwhole : p'.wholeName bs = p.wholeName (b :: bs) := by
        simp [wholeName, hst, hs', hn', nameOf, hb]
      rw [ahead_of_name hs', hwhole]
      refine ⟨?_, rfl⟩
      -- every list of separators starts with the end of the name
      unfold separators
      split_ifs <;> rw [behindAll_cons, hb, if_neg (by simp)]
  all_goals
    simp only [step, hst, stepPutKey, stepGetKey, stepFlags, stepExprTimeStart, stepExprTime,
      stepBytes] at h
    split_ifs at h <;> cases h <;>
      simp_all [ahead, wholeName, behindAll_cons, isSpace, isCr, startsExpire]

/-- Where the separators run out, and what `Parse` makes of it. -/
theorem parse_ahead (hp : p.parseComplete = false) (hn : ¬(p.parse bs).Thrown) :
    match behindAll (p.ahead bs) bs with
    | none => (p.parse bs).Returns false ∧ (p.parse bs).parser.state ≠ .sLF
    | some rest =>
      (p.parse bs).Returns (!rest.isEmpty) ∧ (p.parse bs).parser.state = .sLF ∧
        (p.parse bs).parser.name = p.wholeName bs := by
  induction bs generalizing p with
  | nil =>
    by_cases hs : p.state = .sLF
    · simp [ahead, behindAll, wholeName, hs, Parsed.Returns, hp]
    · rw [behindAll_nil (ahead_ne_nil hs [])]
      exact ⟨⟨rfl, hp⟩, hs⟩
  | cons b bs ih =>
    cases hstep : p.step 0 b with
    | error e => exact absurd (by simp [Parsed.Thrown, parse_cons_error hp hstep]) hn
    | ok p' =>
      by_cases hs : p.state = .sLF
      · simp only [step, hs, stepLF] at hstep
        split_ifs at hstep with hb
        have hok : p.step 0 b = .ok p' := by
          simp only [step, hs, stepLF, if_pos hb]
          exact hstep
        cases hstep
        rw [parse_cons_ok hp hok, parse_of_complete rfl]
        simp [ahead, behindAll, wholeName, hs, Parsed.Returns]
      · obtain ⟨hahead, hname⟩ := step_ahead hs hstep bs
        have hp' : p'.parseComplete = false := by
          by_contra hc
          exact hs (step_completes hp hstep (by simpa using hc)).1
        rw [parse_cons_ok hp hstep] at hn ⊢
        have hn' : ¬(p'.parse bs).Thrown := by simpa [Parsed.Thrown] using hn
        have h := ih hp' hn'
        rw [hahead, ← hname]
        simpa [Parsed.Returns] using h

theorem Fresh.sound (h : p.Fresh) : p.Sound :=
  ⟨by simp [h.incomplete], by simp [h.state], by simp [h.state]⟩

/-- A header gives a command exactly for these names, and never nothing. -/
theorem build_of_header (h : p.Sound) (hs : p.state = .sLF) :
    p.build ≠ .null ∧ ((∃ cmd size, p.build = .command cmd size) ↔ p.name ∈ builtNames) := by
  have hkeys : p.name ≠ text "stats" → p.keys ≠ [] := (h.line hs).resolve_left
  have hmade : (∃ cmd size, p.build = .command cmd size) → p.build ≠ .null := by
    intro hc
    obtain ⟨cmd, size, hb⟩ := hc
    simp [hb]
  have hinsert : ∀ command : InsertCommand → Command, p.name ≠ text "stats" →
      ∃ cmd size, p.buildInsert command = .command cmd size := by
    intro command hn
    obtain ⟨cmd, hb⟩ := buildInsert_of_keys command (hkeys hn)
    exact ⟨cmd, p.bytes, hb⟩
  by_cases hn : p.name ∈ builtNames
  · have hc : ∃ cmd size, p.build = .command cmd size := by
      simp only [builtNames, List.mem_cons, List.not_mem_nil, or_false] at hn
      simp only [build, hs, ne_eq, not_true_eq_false, if_false]
      split_ifs with h1 h2 h3 h4 h5
      · exact hinsert _ (by rw [h1]; decide)
      · exact hinsert _ (by rw [h2]; decide)
      · exact hinsert _ (by rw [h3]; decide)
      · exact ⟨_, _, rfl⟩
      · exact ⟨_, _, rfl⟩
      · simp [h1, h2, h3, h4, h5] at hn
    exact ⟨hmade hc, iff_of_true hc hn⟩
  · have hb : p.build = .thrown .unsupportedCommand := by
      simp only [builtNames, List.mem_cons, List.not_mem_nil, or_false, not_or] at hn
      simp [build, hs, hn]
    simp [hb, hn]

theorem build_of_no_header (hs : p.state ≠ .sLF) : p.build = .null := by
  simp [build, hs]

/-- `Parse` called on each chunk, also behind a call that has returned true, until it throws: the
result of the last call. -/
def calls (p : Parser) : List Bytes → Parsed
  | [] => ⟨p, 0, none⟩
  | chunk :: chunks =>
    let r := p.parse chunk
    if r.error ≠ none then r else r.parser.calls chunks

theorem calls_of_complete (hp : p.parseComplete = true) (chunks : List Bytes) :
    p.calls chunks = ⟨p, 0, none⟩ := by
  induction chunks with
  | nil => rfl
  | cons chunk chunks ih =>
    simp only [calls, parse_of_complete hp, ne_eq, not_true_eq_false, if_false]
    exact ih

/-- Only the position depends on the calls behind the completion. -/
theorem calls_feed (p : Parser) (chunks : List Bytes) :
    (p.calls chunks).parser = (p.feed chunks).parser ∧
      (p.calls chunks).error = (p.feed chunks).error := by
  induction chunks generalizing p with
  | nil => exact ⟨rfl, rfl⟩
  | cons chunk chunks ih =>
    rcases (p.parse chunk).thrown_or_returns with ht | hr | hr
    · rw [feed_of_stopped (.inl ht)]
      have ht' : (p.parse chunk).error ≠ none := ht
      simp only [calls, if_pos ht', and_self]
    · rw [feed_of_stopped (.inr hr)]
      simp only [calls, hr.1, ne_eq, not_true_eq_false, if_false, calls_of_complete hr.2, and_self]
    · rw [feed_of_pending hr]
      simp only [calls, hr.1, ne_eq, not_true_eq_false, if_false]
      exact ih _

/-- `Build` gives a command behind a call that has returned true, and nothing behind one that has
returned false. -/
def BuildsCompleted (r : Parsed) : Prop :=
  (r.Returns true → ∃ cmd size, r.parser.build = .command cmd size) ∧
    (r.Returns false → r.parser.build = .null)

/-- Where no call throws, `Build` agrees with what `Parse` has returned exactly when the input
does not break off behind its header and the command of the header is one that is made. -/
theorem builds_completed_iff (h : p.Fresh) (chunks : List Bytes) (hn : ¬(p.calls chunks).Thrown) :
    BuildsCompleted (p.calls chunks) ↔ BuildsWhole chunks.flatten := by
  obtain ⟨hparser, herror⟩ := calls_feed p chunks
  obtain ⟨hflat, hthrown, -⟩ := feed_flatten p chunks
  have hn' : ¬(p.parse chunks.flatten).Thrown := by
    rw [← hthrown]
    simpa [Parsed.Thrown, herror] using hn
  have he : (p.calls chunks).error = none := by simpa [Parsed.Thrown] using hn
  have he' : (p.parse chunks.flatten).error = none := by simpa [Parsed.Thrown] using hn'
  have hsound : (p.parse chunks.flatten).parser.Sound := parse_sound h.sound _
  have hname : p.wholeName chunks.flatten = nameOf chunks.flatten := by
    simp [wholeName, h.state, h.name]
  have hahead : p.ahead chunks.flatten = separators (nameOf chunks.flatten) := by
    rw [ahead_of_name h.state, hname]
  have hparse := parse_ahead h.incomplete hn'
  simp only [BuildsCompleted, BuildsWhole, Parsed.Returns, hparser, hflat, he, he', true_and,
    behindHeader, hname, hahead] at hparse ⊢
  generalize (p.parse chunks.flatten).parser = q at hparse hsound ⊢
  cases hrest : behindAll (separators (nameOf chunks.flatten)) chunks.flatten with
  | none =>
    rw [hrest] at hparse
    obtain ⟨hc, hs⟩ := hparse
    simp [hc, build_of_no_header hs]
  | some rest =>
    rw [hrest] at hparse
    obtain ⟨hc, hs, hq⟩ := hparse
    obtain ⟨hnull, hcommand⟩ := build_of_header hsound hs
    rw [← hq]
    cases rest with
    | nil =>
      simp only [List.isEmpty_nil, Bool.not_true] at hc
      simp [hc, hnull]
    | cons c rest =>
      simp only [List.isEmpty_cons, Bool.not_false] at hc
      simp [hc, ← hcommand]

theorem builds_completed_set :
    BuildsCompleted ((create false).calls [text "set k 0", text " 0 5\r", text "\n", text "hello"]) :=
  (builds_completed_iff (fresh_create false) [text "set k 0", text " 0 5\r", text "\n", text "hello"]
    (by decide)).mpr ⟨by decide, by decide⟩

/-- Without the LF `Build` already makes a command, and for `gets` it throws. -/
theorem not_builds_completed :
    ¬BuildsCompleted ((create false).calls [text "get a\r"]) ∧
      ¬BuildsCompleted ((create false).calls [text "gets a\r\n"]) := by
  constructor
  · intro h
    exact absurd (h.2 (by decide)) (by decide)
  · intro h
    obtain ⟨cmd, size, hb⟩ := h.1 (by decide)
    have hthrown : ((create false).calls [text "gets a\r\n"]).parser.build =
      .thrown .unsupportedCommand := by decide
    exact absurd (hb.symm.trans hthrown) (by simp)

end Parser

end Sysprog.Protocol
