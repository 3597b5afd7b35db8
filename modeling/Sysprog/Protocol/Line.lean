import Sysprog.Protocol.Stream
import Mathlib.Data.List.TakeWhile

namespace Sysprog.Protocol

/-- CR or LF. -/
def isLineEnd (b : UInt8) : Bool := b = byte '\r' || b = byte '\n'

def isSpace (b : UInt8) : Bool := b = byte ' '

/-- What the first byte of an expiration time looks like. -/
def startsExpire (b : UInt8) : Bool := b = byte '-' || isDigit b

/-- The bytes behind the first one that is a `stop`. -/
def behindFirst (stop : UInt8 → Bool) : Bytes → Option Bytes
  | [] => none
  | b :: bs => if stop b then some bs else behindFirst stop bs

/-- The bytes have all these separators, each behind the one before. -/
def passes : List (UInt8 → Bool) → Bytes → Bool
  | [], _ => true
  | stop :: stops, bs =>
    match behindFirst stop bs with
    | none => false
    | some rest => passes stops rest

def getNames : List Bytes := [text "get", text "gets"]

def storeNames : List Bytes := [text "set", text "add", text "append", text "prepend"]

/-- A line that lacks nothing but its CR LF: a name that is known and, for a storing command, the
ends of its key, of its flags and of its expiration time. -/
def wholeCommand (line : Bytes) : Bool :=
  match behindFirst isSpace line with
  | none => line = text "stats"
  | some fields =>
    let name := line.takeWhile fun b => !isSpace b
    getNames.contains name || storeNames.contains name &&
      passes [isSpace, isSpace, startsExpire, isSpace] fields

/-- No byte is a CR or an LF. -/
def LineFree (bs : Bytes) : Prop := ∀ b ∈ bs, isLineEnd b = false

/-- One line with its end. -/
def OneLine (bs : Bytes) : Prop := ∃ line, LineFree line ∧ bs = line ++ crlf

/-- The beginning of one line. -/
def OpenLine (bs : Bytes) : Prop := ∃ line, LineFree line ∧ (bs = line ∨ bs = line ++ [byte '\r'])

/-- The first CR or LF, if there is one, is a CR, and it is the last byte or the end of a whole
command. -/
def EndsWhole (bs : Bytes) : Prop :=
  match bs.dropWhile fun b => !isLineEnd b with
  | [] => True
  | b :: rest =>
    b = byte '\r' ∧ (rest = [] ∨ wholeCommand (bs.takeWhile fun b => !isLineEnd b) = true)

section bytes

variable {stop : UInt8 → Bool} {bs us vs x y : Bytes} {b c : UInt8}

theorem behindFirst_none (h : behindFirst stop bs = none) : ∀ b ∈ bs, stop b = false := by
  induction bs with
  | nil => simp
  | cons b bs ih =>
    by_cases hb : stop b = true
    · simp [behindFirst, hb] at h
    · simp only [behindFirst, hb] at h
      intro c hc
      rcases List.mem_cons.mp hc with rfl | hc
      · simpa using hb
      · exact ih (by simpa using h) c hc

theorem behindFirst_some (h : behindFirst stop bs = some us) :
    ∃ b, stop b = true ∧ bs = bs.takeWhile (fun b => !stop b) ++ b :: us := by
  induction bs with
  | nil => cases h
  | cons b bs ih =>
    by_cases hb : stop b = true
    · obtain rfl : bs = us := by simpa [behindFirst, hb] using h
      exact ⟨b, hb, by simp [hb]⟩
    · obtain ⟨c, hc, hs⟩ := ih (by simpa [behindFirst, hb] using h)
      refine ⟨c, hc, ?_⟩
      rw [List.takeWhile_cons_of_pos (by simpa using hb), List.cons_append, ← hs]

theorem lineFree_append : LineFree (us ++ vs) ↔ LineFree us ∧ LineFree vs := by
  simp [LineFree, or_imp, forall_and]

theorem takeWhile_notStop (bs : Bytes) : ∀ b ∈ bs.takeWhile (fun b => !stop b), stop b = false := by
  intro b hb
  simpa using List.mem_takeWhile_imp hb

/-- A line end splits the bytes in one way only. -/
theorem lineFree_split (hx : LineFree x) (hy : LineFree y) (hb : isLineEnd b = true)
    (hc : isLineEnd c = true) (h : x ++ b :: us = y ++ c :: vs) : x = y ∧ b = c ∧ us = vs := by
  induction x generalizing y with
  | nil =>
    cases y with
    | nil => simpa using h
    | cons d y =>
      obtain ⟨rfl, -⟩ : b = d ∧ _ := by simpa using h
      exact absurd hb (by simp [hy b (by simp)])
  | cons d x ih =>
    cases y with
    | nil =>
      obtain ⟨rfl, -⟩ : d = c ∧ _ := by simpa using h
      exact absurd hc (by simp [hx d (by simp)])
    | cons e y =>
      obtain ⟨rfl, ht⟩ : d = e ∧ x ++ b :: us = y ++ c :: vs := by simpa using h
      obtain ⟨hxy, hbc, huv⟩ := ih (fun k hk => hx k (by simp [hk])) (fun k hk => hy k (by simp [hk])) ht
      exact ⟨by rw [hxy], hbc, huv⟩

theorem oneLine_iff (hx : LineFree x) (hb : isLineEnd b = true) :
    OneLine (x ++ b :: us) ↔ b = byte '\r' ∧ us = [byte '\n'] := by
  constructor
  · intro h
    obtain ⟨y, hy, he⟩ := h
    exact (lineFree_split hx hy hb (by decide) he).2
  · intro h
    obtain ⟨rfl, rfl⟩ := h
    exact ⟨x, hx, rfl⟩

theorem openLine_iff (hx : LineFree x) (hb : isLineEnd b = true) :
    OpenLine (x ++ b :: us) ↔ b = byte '\r' ∧ us = [] := by
  constructor
  · intro h
    obtain ⟨y, hy, he | he⟩ := h
    · exact absurd hb (by simp [hy b (by simp [← he])])
    · exact (lineFree_split hx hy hb (by decide) he).2
  · intro h
    obtain ⟨rfl, rfl⟩ := h
    exact ⟨x, hx, .inr rfl⟩

end bytes

namespace Parser

variable {p q r : Parser} {us vs x : Bytes}

theorem Reads.unique (h : Reads p us q) (h' : Reads p us r) : q = r := by
  induction us generalizing p with
  | nil => exact Eq.trans (Eq.symm h) h'
  | cons b us ih =>
    obtain ⟨-, p1, hs, hr⟩ := h
    obtain ⟨-, p2, hs', hr'⟩ := h'
    obtain rfl : p1 = p2 := Except.ok.inj (hs.symm.trans hs')
    exact ih hr hr'

theorem Reads.split (h : Reads p (us ++ vs) q) : ∃ r, Reads p us r ∧ Reads r vs q := by
  induction us generalizing p with
  | nil => exact ⟨p, rfl, h⟩
  | cons b us ih =>
    obtain ⟨hp, p', hs, hr⟩ := h
    obtain ⟨r, hu, hv⟩ := ih hr
    exact ⟨r, ⟨hp, p', hs, hu⟩, hv⟩

/-- In state `S` every byte is skipped up to the first `stop`, which leads to state `T`. -/
structure Skips (S T : State) (stop : UInt8 → Bool) : Prop where
  stay : ∀ (p p' : Parser) b, p.state = S → stop b = false → p.step 0 b = .ok p' → p'.state = S
  go : ∀ (p p' : Parser) b, p.state = S → stop b = true → p.step 0 b = .ok p' → p'.state = T

theorem skips_key : Skips .spKey .spFlags isSpace where
  stay := by
    intro p p' b hs hb h
    simp only [step, hs, stepPutKey, of_decide_eq_false hb, if_false] at h
    cases h
    rfl
  go := by
    intro p p' b hs hb h
    simp only [step, hs, stepPutKey, of_decide_eq_true hb, if_true] at h
    cases h
    rfl

theorem skips_flags : Skips .spFlags .spExprTimeStart isSpace where
  stay := by
    intro p p' b hs hb h
    simp only [step, hs, stepFlags, of_decide_eq_false hb, if_false] at h
    split_ifs at h <;> cases h <;> first | rfl | exact hs
  go := by
    intro p p' b hs hb h
    simp only [step, hs, stepFlags, of_decide_eq_true hb, if_true] at h
    cases h
    rfl

theorem skips_exprTimeStart : Skips .spExprTimeStart .spExprTime startsExpire where
  stay := by
    intro p p' b hs hb h
    obtain ⟨hminus, hdigit⟩ := Bool.or_eq_false_iff.mp hb
    simp only [step, hs, stepExprTimeStart, of_decide_eq_false hminus, hdigit, if_false,
      Bool.false_eq_true] at h
    cases h
    exact hs
  go := by
    intro p p' b hs hb h
    simp only [step, hs, stepExprTimeStart] at h
    split_ifs at h with hminus hdigit
    · cases h
      rfl
    · cases h
      rfl
    · simp [startsExpire, hminus, hdigit] at hb

theorem skips_exprTime : Skips .spExprTime .spBytes isSpace where
  stay := by
    intro p p' b hs hb h
    simp only [step, hs, stepExprTime, of_decide_eq_false hb, if_false] at h
    split_ifs at h <;> cases h <;> first | rfl | exact hs
  go := by
    intro p p' b hs hb h
    simp only [step, hs, stepExprTime, of_decide_eq_true hb, if_true] at h
    cases h
    rfl

theorem Skips.reads {S T : State} {stop : UInt8 → Bool} (k : Skips S T stop) (hs : p.state = S)
    (h : Reads p x q) :
    behindFirst stop x = none ∧ q.state = S ∨
      ∃ rest r, behindFirst stop x = some rest ∧ r.state = T ∧ Reads r rest q := by
  induction x generalizing p with
  | nil =>
    obtain rfl : p = q := h
    exact .inl ⟨rfl, hs⟩
  | cons b x ih =>
    obtain ⟨-, p', hstep, hr⟩ := h
    cases hb : stop b with
    | true => exact .inr ⟨x, p', by simp [behindFirst, hb], k.go p p' b hs hb hstep, hr⟩
    | false =>
      have hrest := ih (k.stay p p' b hs hb hstep) hr
      simpa [behindFirst, hb] using hrest

/-- A CR now ends the line. -/
def Ready (p : Parser) : Prop :=
  p.state = .sgKey ∨ p.state = .spBytes ∨ p.state = .sName ∧ p.name = text "stats"

/-- These states are only left at a CR. -/
theorem Reads.stays {S : State} (hS : S = .sgKey ∨ S = .spBytes) (hs : p.state = S)
    (hx : LineFree x) (h : Reads p x q) : q.state = S := by
  induction x generalizing p with
  | nil =>
    obtain rfl : p = q := h
    exact hs
  | cons b x ih =>
    obtain ⟨-, p', hstep, hr⟩ := h
    have hb : b ≠ byte '\r' := by
      intro he
      exact absurd (hx b (by simp)) (by simp [he, isLineEnd])
    refine ih ?_ (fun c hc => hx c (by simp [hc])) hr
    obtain rfl | rfl := hS
    all_goals
      simp only [step, hs, stepGetKey, stepBytes, hb, if_false] at hstep
      split_ifs at hstep <;> cases hstep <;> first | rfl | exact hs

section fields

variable {S T : State} {stop : UInt8 → Bool} {stops : List (UInt8 → Bool)}

theorem Skips.ready_iff (k : Skips S T stop) (hS : S ∉ [State.sgKey, .spBytes, .sName])
    (hT : ∀ (r : Parser) rest, r.state = T → LineFree rest → Reads r rest q →
      (Ready q ↔ passes stops rest = true))
    (hs : p.state = S) (hx : LineFree x) (h : Reads p x q) :
    Ready q ↔ passes (stop :: stops) x = true := by
  rcases k.reads hs h with ⟨hn, hq⟩ | ⟨rest, r, hr, hrs, hread⟩
  · simp only [List.mem_cons, List.not_mem_nil, or_false, not_or] at hS
    simp [Ready, hq, hS, passes, hn]
  · obtain ⟨b, -, hsplit⟩ := behindFirst_some hr
    have hrest : LineFree rest := by
      rw [hsplit, lineFree_append] at hx
      exact fun c hc => hx.2 c (by simp [hc])
    rw [hT r rest hrs hrest hread]
    simp only [passes, hr]

/-- From the key of a storing line on. -/
theorem ready_iff_fields (hs : p.state = .spKey) (hx : LineFree x) (h : Reads p x q) :
    Ready q ↔ passes [isSpace, isSpace, startsExpire, isSpace] x = true := by
  refine skips_key.ready_iff (by decide) ?_ hs hx h
  intro p1 x1 hs1 hx1 h1
  refine skips_flags.ready_iff (by decide) ?_ hs1 hx1 h1
  intro p2 x2 hs2 hx2 h2
  refine skips_exprTimeStart.ready_iff (by decide) ?_ hs2 hx2 h2
  intro p3 x3 hs3 hx3 h3
  refine skips_exprTime.ready_iff (by decide) ?_ hs3 hx3 h3
  intro p4 x4 hs4 hx4 h4
  have hq := Reads.stays (.inr rfl) hs4 hx4 h4
  simp [Ready, hq, passes]

end fields

/-- The space behind a name. -/
theorem stepName_space (hs : p.state = .sName) (h : p.step 0 (byte ' ') = .ok q) :
    (p.name ∈ storeNames ∧ q.state = .spKey) ∨ (p.name ∈ getNames ∧ q.state = .sgKey) ∨
      (p.name = text "stats" ∧ q.state = .sLF) := by
  simp only [step, hs, stepName] at h
  rw [if_pos (by decide)] at h
  split_ifs at h with hstore hget hstats
  · cases h
    exact .inl ⟨by simpa [storeNames] using hstore, rfl⟩
  · cases h
    exact .inr (.inl ⟨by simpa [getNames] using hget, rfl⟩)
  · cases h
    exact .inr (.inr ⟨hstats, rfl⟩)

/-- No bytes but an LF are read in this state. -/
theorem Reads.lf_nil (hs : p.state = .sLF) (hx : LineFree x) (h : Reads p x q) : q.state = .sLF := by
  cases x with
  | nil =>
    obtain rfl : p = q := h
    exact hs
  | cons b x =>
    obtain ⟨-, p', hstep, -⟩ := h
    have hb : b ≠ byte '\n' := by
      intro he
      exact absurd (hx b (by simp)) (by simp [he, isLineEnd])
    simp [step, hs, stepLF, hb] at hstep

/-- What the parser is ready for can be seen from the bytes of the line. -/
theorem ready_iff_whole (h : p.Fresh) (hx : LineFree x) (hr : Reads p x q) :
    Ready q ↔ wholeCommand x = true := by
  have hplain : ∀ name : Bytes, LineFree name → (∀ b ∈ name, isSpace b = false) →
      Reads p name { p with name := name } := by
    intro name hfree hspace
    apply reads_name h.state h.incomplete h.name
    intro b hb
    refine ⟨of_decide_eq_false (hspace b hb), ?_⟩
    intro he
    exact absurd (hfree b hb) (by simp [he, isLineEnd])
  cases hf : behindFirst isSpace x with
  | none =>
    obtain rfl := hr.unique (hplain x hx (behindFirst_none hf))
    simp [Ready, h.state, wholeCommand, hf]
  | some fields =>
    obtain ⟨b, hb, hsplit⟩ := behindFirst_some hf
    obtain rfl : b = byte ' ' := of_decide_eq_true hb
    generalize hname : x.takeWhile (fun b => !isSpace b) = name at hsplit
    have hspace : ∀ b ∈ name, isSpace b = false := hname ▸ takeWhile_notStop x
    rw [hsplit] at hr
    have hfree := hx
    rw [hsplit, lineFree_append] at hfree
    obtain ⟨hnf, hff⟩ := hfree
    have hfields : LineFree fields := fun c hc => hff c (by simp [hc])
    obtain ⟨r, hrn, -, p', hstep, hrest⟩ := hr.split
    obtain rfl := hrn.unique (hplain name hnf hspace)
    simp only [wholeCommand, hf, hname]
    rcases stepName_space (p := { p with name := name }) h.state hstep with ⟨hn, hs⟩ | ⟨hn, hs⟩ | ⟨hn, hs⟩
    · have hg : name ∉ getNames := by
        simp only [storeNames, List.mem_cons, List.not_mem_nil, or_false] at hn
        rcases hn with rfl | rfl | rfl | rfl <;> decide
      rw [ready_iff_fields hs hfields hrest]
      simp [hg, show name ∈ storeNames from hn]
    · have hq := Reads.stays (.inl rfl) hs hfields hrest
      simp [Ready, hq, show name ∈ getNames from hn]
    · have hq := Reads.lf_nil hs hfields hrest
      obtain rfl : name = text "stats" := hn
      have hg : text "stats" ∉ getNames := by decide
      have hst : text "stats" ∉ storeNames := by decide
      simp [Ready, hq, hg, hst]

/-- A header is completed by an LF, and only where one is waited for. -/
theorem step_completes (hp : p.parseComplete = false) {b : UInt8} (h : p.step 0 b = .ok q)
    (hq : q.parseComplete = true) : p.state = .sLF ∧ b = byte '\n' := by
  cases hst : p.state
  case sCR => simp [step, hst] at h
  case sLF =>
    simp only [step, hst, stepLF] at h
    split_ifs at h with hb
    exact ⟨rfl, hb⟩
  all_goals
    simp only [step, hst, stepName, stepPutKey, stepGetKey, stepFlags, stepExprTimeStart,
      stepExprTime, stepBytes] at h
    split_ifs at h <;> cases h <;> simp [hp] at hq

/-- A CR leads to the wait for an LF exactly from where it ends the line. -/
theorem step_cr (h : p.step 0 (byte '\r') = .ok q) : q.state = .sLF ↔ Ready p := by
  have hspace : byte '\r' ≠ byte ' ' := by decide
  have hminus : byte '\r' ≠ byte '-' := by decide
  have hlf : byte '\r' ≠ byte '\n' := by decide
  have hdigit : isDigit (byte '\r') = false := by decide
  cases hst : p.state
  case sName =>
    simp only [step, hst, stepName, hspace, false_or, if_true] at h
    split_ifs at h with hstore hget hstats
    · have hn : p.name ≠ text "stats" := by
        rcases hstore with hn | hn | hn | hn <;> rw [hn] <;> decide
      cases h
      simp [Ready, hst, hn]
    · have hn : p.name ≠ text "stats" := by
        rcases hget with hn | hn <;> rw [hn] <;> decide
      cases h
      simp [Ready, hst, hn]
    · cases h
      simp [Ready, hst, hstats]
  all_goals
    simp only [step, hst, stepPutKey, stepGetKey, stepFlags, stepExprTimeStart, stepExprTime,
      stepBytes, stepLF, hspace, hminus, hlf, hdigit, if_true, if_false, Bool.false_eq_true,
      List.length_append, List.length_singleton, Nat.add_one_ne_zero] at h
    cases h <;> simp [Ready, hst]

/-- Bytes without a line end that do not make `Parse` throw are read without completing. -/
theorem reads_of_not_thrown (hp : p.parseComplete = false) (hx : LineFree x)
    (hn : ¬(p.parse (x ++ vs)).Thrown) : ∃ q, Reads p x q ∧ q.parseComplete = false := by
  induction x generalizing p with
  | nil => exact ⟨p, rfl, hp⟩
  | cons b x ih =>
    cases hs : p.step 0 b with
    | error e => exact absurd (by simp [Parsed.Thrown, parse_cons_error hp hs]) hn
    | ok p' =>
      have hp' : p'.parseComplete = false := by
        by_contra hc
        have hb := (step_completes hp hs (by simpa using hc)).2
        exact absurd (hx b (by simp)) (by simp [hb, isLineEnd])
      have hn' : ¬(p'.parse (x ++ vs)).Thrown := by
        simpa [Parsed.Thrown, parse_cons_ok hp hs] using hn
      obtain ⟨q, hr, hq⟩ := ih hp' (fun c hc => hx c (by simp [hc])) hn'
      exact ⟨q, ⟨hp, p', hs, hr⟩, hq⟩

/-- What `Parse` has taken when it returns true is one line, and what it has taken when it returns
false is the beginning of one: it never swallows the end of a line. -/
def Lined (bs : Bytes) (r : Parsed) : Prop :=
  (r.Returns true → OneLine (bs.take r.pos)) ∧ (r.Returns false → OpenLine (bs.take r.pos))

theorem Parsed.returns_of_not_thrown {r : Parsed} (h : ¬r.Thrown) : r.Returns true ∨ r.Returns false :=
  r.thrown_or_returns.resolve_left h

/-- Behind a CR: the next byte is an LF that completes the header, or there is none yet. -/
theorem behind_cr_iff {rest : Bytes} (hq : q.parseComplete = false)
    (hs : q.step 0 (byte '\r') = .ok r) (hn : ¬(r.parse rest).Thrown) :
    ((r.parse rest).Returns true → rest.take (r.parse rest).pos = [byte '\n']) ∧
      ((r.parse rest).Returns false → rest.take (r.parse rest).pos = []) ↔
    rest = [] ∨ Ready q := by
  have hr : r.parseComplete = false := by
    by_contra hc
    exact absurd (step_completes hq hs (by simpa using hc)).2 (by decide)
  rw [← step_cr hs]
  cases rest with
  | nil =>
    simp [Parsed.Returns, hr]
  | cons c rest =>
    cases hc : r.step 0 c with
    | error e => exact absurd (by simp [Parsed.Thrown, parse_cons_error hr hc]) hn
    | ok r' =>
      constructor
      · intro h
        right
        by_contra hlf
        have hr' : r'.parseComplete = false := by
          by_contra hcomplete
          exact hlf (step_completes hr hc (by simpa using hcomplete)).1
        rw [parse_cons_ok hr hc] at h hn
        have hn' : ¬(r'.parse rest).Thrown := by simpa [Parsed.Thrown] using hn
        rcases Parsed.returns_of_not_thrown hn' with ht | hf
        · have htake := congrArg List.length (h.1 ⟨by simp [ht.1], ht.2⟩)
          have hne : rest ≠ [] := by
            intro he
            rw [he] at ht
            exact absurd (hr'.symm.trans ht.2) (by simp)
          have hpos := parse_pos_pos hr' hne ht.1
          have hlen := List.length_pos_of_ne_nil hne
          simp only [List.take_succ_cons, List.length_cons, List.length_take, List.length_nil] at htake
          omega
        · exact absurd (h.2 ⟨by simp [hf.1], hf.2⟩) (by simp)
      · intro h
        have hlf := h.resolve_left (by simp)
        have hb : c = byte '\n' := by
          by_contra hne
          simp [step, hlf, stepLF, hne] at hc
        have hstep : r.step 0 c = .ok { r with parseComplete := true } := by
          simp [step, hlf, stepLF, hb]
        have hparse : r.parse (c :: rest) = ⟨{ r with parseComplete := true }, 1, none⟩ := by
          rw [parse_cons_ok hr hstep, parse_of_complete rfl]
          rfl
        rw [hparse]
        refine ⟨fun _ => by simp [hb], fun hf => absurd hf.2 (by simp)⟩

theorem lined_parse_iff (h : p.Fresh) {bs : Bytes} (hn : ¬(p.parse bs).Thrown) :
    Lined bs (p.parse bs) ↔ EndsWhole bs := by
  have hfree : LineFree (bs.takeWhile fun b => !isLineEnd b) := takeWhile_notStop bs
  have hsplit := List.takeWhile_append_dropWhile (p := fun b => !isLineEnd b) (l := bs)
  unfold EndsWhole
  generalize bs.takeWhile (fun b => !isLineEnd b) = x at *
  cases hd : bs.dropWhile (fun b => !isLineEnd b) with
  | nil =>
    rw [hd, List.append_nil] at hsplit
    subst hsplit
    have hn' : ¬(p.parse (x ++ [])).Thrown := by rwa [List.append_nil]
    obtain ⟨q, hr, hq⟩ := reads_of_not_thrown h.incomplete hfree hn'
    have hparse : p.parse x = ⟨q, x.length, none⟩ := by simpa using hr.parse_pending hq []
    rw [hparse]
    refine iff_true_intro ⟨fun ht => absurd (hq.symm.trans ht.2) (by simp), fun _ => ?_⟩
    exact ⟨x, hfree, .inl (by simp)⟩
  | cons b rest =>
    have hb : isLineEnd b = true := by
      have hhead := List.head?_dropWhile_not (fun b => !isLineEnd b) bs
      simpa [hd] using hhead
    rw [hd] at hsplit
    subst hsplit
    obtain ⟨q, hr, hq⟩ := reads_of_not_thrown h.incomplete hfree hn
    rw [hr.parse_pending hq] at hn ⊢
    cases hs : q.step 0 b with
    | error e => exact absurd (by simp [Parsed.Thrown, parse_cons_error hq hs]) hn
    | ok r =>
      rw [parse_cons_ok hq hs] at hn ⊢
      have hn' : ¬(r.parse rest).Thrown := by simpa [Parsed.Thrown] using hn
      have htake : (x ++ b :: rest).take (x.length + ((r.parse rest).pos + 1)) =
          x ++ b :: rest.take (r.parse rest).pos := by
        rw [List.take_append, List.take_of_length_le (by omega), Nat.add_sub_cancel_left]
        rfl
      simp only [Lined, Parsed.Returns, htake, oneLine_iff hfree hb, openLine_iff hfree hb,
        Option.map_eq_none_iff]
      change ((r.parse rest).Returns true → _) ∧ ((r.parse rest).Returns false → _) ↔ _
      by_cases hcr : b = byte '\r'
      · subst hcr
        rw [← ready_iff_whole h hfree hr, ← behind_cr_iff hq hs hn']
        simp
      · simp only [hcr, false_and, imp_false, iff_false]
        intro hboth
        rcases Parsed.returns_of_not_thrown hn' with ht | hf
        · exact hboth.1 ht
        · exact hboth.2 hf

/-- Where `Parse` does not throw, what it has taken is one line, or the beginning of one, exactly
when the first line end of the input stands behind a whole command. -/
theorem lined_iff (h : p.Fresh) (chunks : List Bytes) (hn : ¬(p.feed chunks).Thrown) :
    Lined chunks.flatten (p.feed chunks) ↔ EndsWhole chunks.flatten := by
  obtain ⟨hparser, hthrown, hpos⟩ := feed_flatten p chunks
  have hn' : ¬(p.parse chunks.flatten).Thrown := fun ht => hn (hthrown.mpr ht)
  have he : (p.feed chunks).error = none := by simpa [Parsed.Thrown] using hn
  have he' : (p.parse chunks.flatten).error = none := by simpa [Parsed.Thrown] using hn'
  rw [← lined_parse_iff h hn']
  simp only [Lined, Parsed.Returns, hparser, hpos hn, he, he']

theorem lined_stats :
    Lined (text "stats\r\nget a\r\n")
      ((create false).feed [text "sta", text "ts\r\nget a\r\n"]) :=
  (lined_iff (fresh_create false) [text "sta", text "ts\r\nget a\r\n"] (by decide)).mpr
    ⟨rfl, .inr rfl⟩

/-- `get` without a key takes the next line for its keys. -/
theorem not_lined :
    ¬Lined (text "get\r\nget a\r\n") ((create false).feed [text "get\r\n", text "get a\r\n"]) := by
  intro h
  obtain ⟨line, hfree, he⟩ := h.1 (by decide)
  have htaken : (text "get\r\nget a\r\n").take
      ((create false).feed [text "get\r\n", text "get a\r\n"]).pos =
        text "get" ++ byte '\r' :: text "\nget a\r\n" := by decide
  have hone : OneLine (text "get" ++ byte '\r' :: text "\nget a\r\n") :=
    ⟨line, hfree, htaken.symm.trans he⟩
  rw [oneLine_iff (forall_of_all (by decide)) (by decide)] at hone
  exact absurd hone.2 (by decide)

end Parser

end Sysprog.Protocol
