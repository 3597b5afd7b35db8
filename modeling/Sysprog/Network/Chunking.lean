import Sysprog.Network.Connection

namespace Sysprog.Network

open Execute Protocol

variable {σ ω : Type}

/-- Nothing fails outside the parser: the running flag stays true and all sends succeed. -/
structure FrontEnd.Succeeds (f : FrontEnd ω) : Prop where
  running : ∀ o, (f.runningLoad o).1 = true
  responds : ∀ result o, result ≠ [] → ∃ o', f.respond result o = .ok o'

/-- Between two bytes of a live connection: either a header is being read, or an argument is. -/
structure Conn.Ready (c : Conn σ) : Prop where
  alive : c.fault = none
  idle : c.commandToExecute = none →
    c.parser.parseComplete = false ∧ c.parser.Sound ∧ c.argumentForCommand = []
  waiting : c.commandToExecute.isSome → 0 < c.argRemains

/-- The connection but for the position in the text of its exception. -/
def Conn.unplaced (c : Conn σ) : Conn σ := { c with fault := c.fault.map Error.unplaced }

theorem Conn.unplaced_of_alive {c : Conn σ} (h : c.fault = none) : c.unplaced = c := by
  cases c
  cases h
  rfl

theorem Conn.create_ready (storage : σ) (argRemains : Nat) (negative : Bool) :
    (Conn.create storage argRemains negative).Ready :=
  ⟨rfl, fun _ => ⟨rfl, Parser.sound_create negative, rfl⟩, by simp [Conn.create]⟩

section Feed

variable (S : Storage σ)

/-- The third phase of the loop when nothing fails. -/
def Conn.runCommand (c : Conn σ) : Conn σ :=
  match c.commandToExecute with
  | none => c
  | some cmd =>
    if c.argRemains = 0 then
      { (c.execute S cmd).2 with
        commandToExecute := none, argumentForCommand := [], parser := c.parser.reset }
    else c

/-- The loop as a machine that takes one byte at a time. -/
def Conn.feed (c : Conn σ) (b : UInt8) : Conn σ :=
  if c.fault.isSome then c
  else
    match c.commandToExecute with
    | none =>
      match c.parser.step 0 b with
      | .error e => { c with fault := some e }
      | .ok p =>
        let c := c.parsed p [b]
        if p.parseComplete then c.buildCommand.runCommand S else c
    | some _ => (c.filled [b]).runCommand S

end Feed

variable {S : Storage σ} {f : FrontEnd ω} {c : Conn σ}

theorem Conn.runPhase_of_succeeds (hf : f.Succeeds) (c : Conn σ) (o : ω) :
    (c.runPhase S f o).1 = c.runCommand S := by
  cases hc : c.commandToExecute with
  | none => simp [runPhase, runCommand, hc]
  | some cmd =>
    by_cases hr : c.argRemains = 0
    · have hne : (c.execute S cmd).1 ≠ [] := Command.execute_ne_nil S _ _ cmd
      obtain ⟨o', ho⟩ := hf.responds _ o hne
      simp only [runPhase, runCommand, hc, hr, if_true, ho]
      rfl
    · simp [runPhase, runCommand, hc, hr]

theorem Conn.runCommand_of_idle (h : c.commandToExecute = none) : c.runCommand S = c := by
  simp [runCommand, h]

theorem Conn.runCommand_of_waiting (h : 0 < c.argRemains) : c.runCommand S = c := by
  have hr : c.argRemains ≠ 0 := by omega
  cases hc : c.commandToExecute <;> simp [runCommand, hc, hr]

@[simp] theorem Conn.runCommand_fault : (c.runCommand S).fault = c.fault := by
  simp only [runCommand]
  split <;> try split_ifs
  all_goals rfl

theorem Conn.runCommand_ready (ha : c.fault = none) (hc : c.commandToExecute.isSome) :
    (c.runCommand S).Ready := by
  obtain ⟨cmd, hcmd⟩ := Option.isSome_iff_exists.mp hc
  by_cases hr : c.argRemains = 0
  · have he : c.runCommand S = { (c.execute S cmd).2 with
        commandToExecute := none, argumentForCommand := [], parser := c.parser.reset } := by
      simp [runCommand, hcmd, hr]
    rw [he]
    exact ⟨ha, fun _ => ⟨rfl, Parser.sound_reset _, rfl⟩, by simp⟩
  · rw [runCommand_of_waiting (by omega)]
    exact ⟨ha, by simp [hcmd], fun _ => by omega⟩

/-- What a completed header leads to. -/
theorem Conn.buildCommand_cases (hs : c.parser.Sound) (hp : c.parser.parseComplete = true) :
    (∃ cmd, c.parser.build = .command cmd c.parser.bytes ∧ c.buildCommand =
      { c with commandToExecute := some cmd, argRemains := withDelimiter c.parser.bytes }) ∨
    c.parser.build = .thrown .unsupportedCommand ∧ c.buildCommand =
      { c with argRemains := c.parser.bytes, fault := some .unsupportedCommand } := by
  rcases Parser.build_of_complete hs hp with ⟨cmd, hb⟩ | hb
  · exact .inl ⟨cmd, hb, by simp [buildCommand, hb]⟩
  · exact .inr ⟨hb, by simp [buildCommand, hb]⟩

theorem Conn.foldl_feed_of_fault (h : c.fault.isSome) (bytes : Bytes) :
    bytes.foldl (Conn.feed S) c = c := by
  induction bytes with
  | nil => rfl
  | cons b bytes ih =>
    have hb : c.feed S b = c := by simp [feed, h]
    rw [List.foldl_cons, hb, ih]

theorem Conn.feed_error (h : c.Ready) (hc : c.commandToExecute = none) {b : UInt8} {e : Error}
    (hs : c.parser.step 0 b = .error e) : c.feed S b = { c with fault := some e } := by
  simp [feed, h.alive, hc, hs]

theorem Conn.feed_header (h : c.Ready) (hc : c.commandToExecute = none) {b : UInt8} {p : Parser}
    (hs : c.parser.step 0 b = .ok p) : c.feed S b =
      if p.parseComplete then (c.parsed p [b]).buildCommand.runCommand S else c.parsed p [b] := by
  simp [feed, h.alive, hc, hs]

theorem Conn.feed_argument (h : c.Ready) (hc : c.commandToExecute.isSome) (b : UInt8) :
    c.feed S b = (c.filled [b]).runCommand S := by
  obtain ⟨cmd, hcmd⟩ := Option.isSome_iff_exists.mp hc
  simp [feed, h.alive, hcmd]

theorem Conn.parsed_ready (h : c.Ready) (hc : c.commandToExecute = none) {p : Parser} (hs : p.Sound)
    (hp : p.parseComplete = false) (bytes : Bytes) : (c.parsed p bytes).Ready :=
  ⟨h.alive, fun _ => ⟨hp, hs, (h.idle hc).2.2⟩, h.waiting⟩

/-- One byte keeps a live connection in order. -/
theorem Conn.feed_ready (h : c.Ready) (b : UInt8) (ha : (c.feed S b).fault = none) :
    (c.feed S b).Ready := by
  cases hc : c.commandToExecute with
  | none =>
    obtain ⟨hp, hs, harg⟩ := h.idle hc
    cases hst : c.parser.step 0 b with
    | error e => simp [feed_error h hc hst] at ha
    | ok p =>
      have hsound := Parser.step_sound hs hp hst
      rw [feed_header h hc hst] at ha ⊢
      cases hcomplete : p.parseComplete with
      | false => exact parsed_ready h hc hsound hcomplete _
      | true =>
        rw [if_pos hcomplete] at ha
        rw [if_pos rfl]
        rcases buildCommand_cases (c := c.parsed p [b]) hsound hcomplete with ⟨cmd, -, hb⟩ | ⟨-, hb⟩
        · rw [hb]
          exact runCommand_ready h.alive rfl
        · simp [hb] at ha
  | some cmd =>
    have hsome : c.commandToExecute.isSome := by simp [hc]
    rw [feed_argument h hsome]
    exact runCommand_ready h.alive hsome

theorem Conn.foldl_feed_ready (h : c.Ready) (bytes : Bytes)
    (ha : (bytes.foldl (Conn.feed S) c).fault = none) : (bytes.foldl (Conn.feed S) c).Ready := by
  induction bytes generalizing c with
  | nil => exact h
  | cons b bytes ih =>
    rw [List.foldl_cons] at ha ⊢
    cases hb : (c.feed S b).fault with
    | none => exact ih (feed_ready h b hb) ha
    | some e =>
      rw [foldl_feed_of_fault (by simp [hb]), hb] at ha
      cases ha

theorem Conn.parsed_parsed (p q : Parser) (us vs : Bytes) :
    (c.parsed p us).parsed q vs = c.parsed q (us ++ vs) := by
  simp [parsed]

@[simp] theorem Conn.filled_nil : c.filled [] = c := by
  simp [filled]

theorem Conn.filled_filled (us vs : Bytes) : (c.filled us).filled vs = c.filled (us ++ vs) := by
  simp [filled, Nat.sub_sub]

/-- While a header is read, the bytes go where `Parse` on all of them says. -/
theorem Conn.foldl_feed_idle (h : c.Ready) (hc : c.commandToExecute = none) (bytes : Bytes) :
    bytes.foldl (Conn.feed S) c =
      (let r := c.parser.parse bytes
      let d := c.parsed r.parser (bytes.take r.pos)
      match r.error with
      | some e => { d with fault := some e.unplaced }
      | none =>
        if r.parser.parseComplete then
          (bytes.drop r.pos).foldl (Conn.feed S) (d.buildCommand.runCommand S)
        else d) := by
  induction bytes generalizing c with
  | nil =>
    have hp := (h.idle hc).1
    simp [Parser.parse, Parser.parseLoop, hp, parsed]
  | cons b bytes ih =>
    obtain ⟨hp, hs, -⟩ := h.idle hc
    rw [List.foldl_cons]
    cases hst : c.parser.step 0 b with
    | error e =>
      have he := Parser.step_unplaced hst
      rw [feed_error h hc hst, foldl_feed_of_fault rfl, Parser.parse_cons_error hp hst]
      simp [parsed, he]
    | ok p =>
      rw [feed_header h hc hst, Parser.parse_cons_ok hp hst]
      cases hcomplete : p.parseComplete with
      | true => simp [Parser.parse_of_complete hcomplete, hcomplete]
      | false =>
        have hr := parsed_ready h hc (Parser.step_sound hs hp hst) hcomplete [b]
        rw [if_neg (by simp), ih hr hc]
        simp only [parsed_parsed]
        cases he : ((c.parsed p [b]).parser.parse bytes).error with
        | none => simp [parsed] at he ⊢; simp [he]
        | some e => simp [parsed] at he ⊢; simp [he]

/-- While an argument is read, bytes go to it until it is complete, and the command runs. -/
theorem Conn.foldl_feed_waiting (h : c.Ready) (hc : c.commandToExecute.isSome) (bytes : Bytes) :
    bytes.foldl (Conn.feed S) c =
      (bytes.drop (min c.argRemains bytes.length)).foldl (Conn.feed S)
        ((c.filled (bytes.take (min c.argRemains bytes.length))).runCommand S) := by
  induction bytes generalizing c with
  | nil =>
    have hw := h.waiting hc
    simp [runCommand_of_waiting hw]
  | cons b bytes ih =>
    have hw := h.waiting hc
    rw [List.foldl_cons, feed_argument h hc]
    by_cases hone : c.argRemains = 1
    · simp [hone]
    · have hpos : 0 < (c.filled [b]).argRemains := by
        simp only [filled, List.length_singleton]
        omega
      have hr := runCommand_ready (S := S) (c := c.filled [b]) h.alive hc
      rw [runCommand_of_waiting hpos] at hr ⊢
      have hmin : min c.argRemains (b :: bytes).length = min (c.filled [b]).argRemains bytes.length + 1 := by
        simp only [filled, List.length_cons, List.length_nil]
        omega
      rw [ih hr hc, hmin, List.take_succ_cons, List.drop_succ_cons, filled_filled]
      rfl

/-- Once there is a command, the second and the third phase do what the bytes do one by one. -/
theorem Conn.foldl_feed_fillPhase (ha : c.fault = none) (hc : c.commandToExecute.isSome)
    (bytes : Bytes) :
    bytes.foldl (Conn.feed S) (c.runCommand S) =
      (c.fillPhase bytes).2.foldl (Conn.feed S) ((c.fillPhase bytes).1.runCommand S) := by
  by_cases hr : c.argRemains = 0
  · simp [fillPhase, hr]
  · have hpos : 0 < c.argRemains := by omega
    have hready := runCommand_ready (S := S) ha hc
    rw [runCommand_of_waiting hpos] at hready ⊢
    have hfill : c.commandToExecute.isSome ∧ c.argRemains > 0 := ⟨hc, hpos⟩
    rw [foldl_feed_waiting hready hc, fillPhase, if_pos hfill]

theorem Conn.fillPhase_fault (bytes : Bytes) : (c.fillPhase bytes).1.fault = c.fault := by
  simp only [fillPhase]
  split_ifs <;> rfl

theorem Conn.fillPhase_command (bytes : Bytes) :
    (c.fillPhase bytes).1.commandToExecute = c.commandToExecute := by
  simp only [fillPhase]
  split_ifs <;> rfl

theorem Conn.fillPhase_length (bytes : Bytes) : (c.fillPhase bytes).2.length ≤ bytes.length := by
  simp only [fillPhase]
  split_ifs <;> simp

/-- A pass whose first phase does not leave the loop. -/
theorem Conn.pass_continue (hf : f.Succeeds) (o : ω) {buffer rest : Bytes} {d : Conn σ}
    (hp : c.parsePhase buffer = (d, some rest)) (ha : d.fault = none) :
    ∃ o', c.pass S f o buffer =
      (((d.fillPhase rest).1.runCommand S, o'), some (d.fillPhase rest).2) := by
  have hrun := runPhase_of_succeeds (S := S) hf (d.fillPhase rest).1 o
  have hfault : ((d.fillPhase rest).1.runCommand S).fault = none := by
    rw [runCommand_fault, fillPhase_fault, ha]
  refine ⟨((d.fillPhase rest).1.runPhase S f o).2, ?_⟩
  simp only [pass, hp, hrun, hfault, Option.isSome_none, Bool.false_eq_true, if_false]

/-- A pass that finds or makes a command fills it up and runs it if it can. -/
theorem Conn.pass_command (hf : f.Succeeds) (o : ω) {buffer rest : Bytes} {d : Conn σ}
    (hp : c.parsePhase buffer = (d, some rest)) (ha : d.fault = none)
    (hc : d.commandToExecute.isSome) :
    ∃ e o', c.pass S f o buffer = ((e, o'), some (d.fillPhase rest).2) ∧ e.Ready ∧
      rest.foldl (Conn.feed S) (d.runCommand S) =
        (d.fillPhase rest).2.foldl (Conn.feed S) e := by
  obtain ⟨o', ho⟩ := pass_continue (S := S) hf o hp ha
  refine ⟨_, o', ho, ?_, foldl_feed_fillPhase ha hc rest⟩
  apply runCommand_ready
  · rw [fillPhase_fault, ha]
  · rw [fillPhase_command]
    exact hc

/-- The first phase of an idle connection, seen from the bytes. -/
theorem Conn.parsePhase_feed (h : c.Ready) (hc : c.commandToExecute = none) {buffer : Bytes}
    (hb : buffer ≠ []) :
    (∃ d, c.parsePhase buffer = (d, none) ∧ d.unplaced = buffer.foldl (Conn.feed S) c) ∨
    (∃ d, c.parsePhase buffer = (d, some []) ∧ d.Ready ∧ d.commandToExecute = none ∧
      buffer.foldl (Conn.feed S) c = d) ∨
    ∃ d rest, c.parsePhase buffer = (d, some rest) ∧ d.fault = none ∧ d.commandToExecute.isSome ∧
      rest.length < buffer.length ∧
      buffer.foldl (Conn.feed S) c = rest.foldl (Conn.feed S) (d.runCommand S) := by
  obtain ⟨hp, hs, -⟩ := h.idle hc
  have hlen := List.length_pos_iff.mpr hb
  have hfeed := foldl_feed_idle (S := S) h hc buffer
  have hsound := Parser.parse_sound hs buffer
  have hpos := Parser.parse_pos_pos hp hb
  have hall := Parser.parse_pos_of_incomplete c.parser buffer
  have hphase : c.parsePhase buffer = c.afterParse (c.parser.parse buffer) buffer := by
    simp only [parsePhase, hc]
  generalize c.parser.parse buffer = r at hfeed hsound hpos hall hphase
  obtain ⟨p, pos, error⟩ := r
  simp only [afterParse] at hphase
  cases error with
  | some e => exact .inl ⟨_, hphase, hfeed.symm⟩
  | none =>
    have hpos : 0 < pos := hpos rfl
    have hne : pos ≠ 0 := by omega
    cases hcomplete : p.parseComplete with
    | false =>
      have hall : pos = buffer.length := hall rfl hcomplete
      have hfault : (c.parsed p (buffer.take pos)).fault.isSome = false := by simp [parsed, h.alive]
      have hdrop : buffer.drop pos = [] := by simp [hall]
      simp only [hcomplete, Bool.false_eq_true, if_false, hfault, hne, hdrop] at hphase hfeed
      exact .inr (.inl ⟨_, hphase, parsed_ready h hc hsound hcomplete _, hc, hfeed⟩)
    | true =>
      simp only [hcomplete, if_true] at hphase hfeed
      rcases buildCommand_cases (c := c.parsed p (buffer.take pos)) hsound hcomplete with
        ⟨cmd, -, hbuild⟩ | ⟨-, hbuild⟩
      · have hfault : (c.parsed p (buffer.take pos)).fault.isSome = false := by simp [parsed, h.alive]
        simp only [hbuild, hfault, Bool.false_eq_true, if_false, hne] at hphase hfeed
        refine .inr (.inr ⟨_, _, hphase, h.alive, rfl, ?_, hfeed⟩)
        rw [List.length_drop]
        omega
      · simp only [hbuild, Option.isSome_some, if_true] at hphase hfeed
        rw [runCommand_of_idle (by exact hc)] at hfeed
        exact .inl ⟨_, hphase, (hfeed.trans (foldl_feed_of_fault rfl _)).symm⟩

/-- One pass, seen from the bytes: it leaves the loop in the state they all lead to, or goes on
with fewer of them. -/
theorem Conn.pass_feed (hf : f.Succeeds) (h : c.Ready) (o : ω) {buffer : Bytes} (hb : buffer ≠ []) :
    (∃ d o', c.pass S f o buffer = ((d, o'), none) ∧ d.unplaced = buffer.foldl (Conn.feed S) c) ∨
    ∃ d o' rest, c.pass S f o buffer = ((d, o'), some rest) ∧ d.Ready ∧
      rest.length < buffer.length ∧ buffer.foldl (Conn.feed S) c = rest.foldl (Conn.feed S) d := by
  have hlen := List.length_pos_iff.mpr hb
  cases hc : c.commandToExecute with
  | some cmd =>
    have hsome : c.commandToExecute.isSome := by simp [hc]
    have hw := h.waiting hsome
    have hp : c.parsePhase buffer = (c, some buffer) := by simp [parsePhase, hc]
    obtain ⟨d, o', hpass, hr, heq⟩ := pass_command (S := S) hf o hp h.alive hsome
    rw [runCommand_of_waiting hw] at heq
    refine .inr ⟨d, o', _, hpass, hr, ?_, heq⟩
    simp only [fillPhase, hsome, hw, and_self, if_true, List.length_drop]
    omega
  | none =>
    rcases parsePhase_feed (S := S) h hc hb with
      ⟨d, hp, hd⟩ | ⟨d, hp, hr, hn, heq⟩ | ⟨d, rest, hp, ha, hsome, hlt, heq⟩
    · exact .inl ⟨d, o, by simp [pass, hp], hd⟩
    · obtain ⟨o', ho⟩ := pass_continue (S := S) hf o hp hr.alive
      have hfill : d.fillPhase [] = (d, []) := by simp [fillPhase, hn]
      rw [hfill, runCommand_of_idle hn] at ho
      exact .inr ⟨d, o', [], ho, hr, hlen, heq⟩
    · obtain ⟨e, o', hpass, hr, hrest⟩ := pass_command (S := S) hf o hp ha hsome
      have hle := fillPhase_length (c := d) rest
      exact .inr ⟨e, o', _, hpass, hr, by omega, heq.trans hrest⟩

theorem Conn.processLoop_feed (hf : f.Succeeds) (fuel : Nat) (h : c.Ready) (o : ω) (buffer : Bytes)
    (hl : buffer.length < fuel) :
    (c.processLoop S f fuel o buffer).1.unplaced = buffer.foldl (Conn.feed S) c := by
  induction fuel generalizing c o buffer with
  | zero => omega
  | succ fuel ih =>
    have hrun := hf.running o
    by_cases hb : buffer = []
    · simp [processLoop, hb, unplaced_of_alive h.alive]
    · simp only [processLoop, hrun, ne_eq, hb, not_false_eq_true, and_self, if_true]
      rcases pass_feed (S := S) hf h (f.runningLoad o).2 hb with ⟨d, o', hp, hd⟩ | ⟨d, o', rest, hp, hr, hlt, hd⟩
      · simp only [hp]
        exact hd
      · simp only [hp]
        rw [ih hr o' rest (by omega), hd]

theorem Conn.process_feed (hf : f.Succeeds) (h : c.Ready) (o : ω) (buffer : Bytes) :
    (c.process S f o buffer).1.unplaced = buffer.foldl (Conn.feed S) c :=
  processLoop_feed hf _ h o buffer (by omega)

/-- The whole loop depends on the bytes, and not on how they arrive. -/
theorem Conn.readLoop_feed (hf : f.Succeeds) (h : c.Ready) (o : ω) (chunks : List Bytes) :
    (c.readLoop S f o chunks).1.unplaced = chunks.flatten.foldl (Conn.feed S) c := by
  induction chunks generalizing c o with
  | nil => simp [readLoop, unplaced_of_alive h.alive]
  | cons chunk chunks ih =>
    have hrun := hf.running o
    have hchunk := process_feed (S := S) hf h (f.runningLoad o).2 chunk
    simp only [readLoop, hrun, if_true, List.flatten_cons, List.foldl_append, ← hchunk]
    cases ha : (c.process S f (f.runningLoad o).2 chunk).1.fault with
    | some e =>
      simp only [Option.isSome_some, if_true]
      rw [foldl_feed_of_fault (by simp [unplaced, ha])]
    | none =>
      simp only [Option.isSome_none, Bool.false_eq_true, if_false]
      have hr : (c.process S f (f.runningLoad o).2 chunk).1.Ready := by
        rw [unplaced_of_alive ha] at hchunk
        rw [hchunk] at ha ⊢
        exact foldl_feed_ready h chunk ha
      rw [ih hr, unplaced_of_alive ha]

/-- `send` takes at least one byte of whatever it is given. -/
def SendsSucceed (send : Bytes → Bytes → Int) : Prop := ∀ sent data, data ≠ [] → 0 < send sent data

theorem stBlocking_succeeds {send : Bytes → Bytes → Int} (hs : SendsSucceed send) :
    (stBlocking send).Succeeds := by
  refine ⟨fun _ => rfl, fun result o hr => ?_⟩
  have hpos := hs o.sent (result ++ crlf) (by simp [hr])
  exact ⟨_, if_neg (by omega)⟩

theorem mtBlocking_succeeds {running : Nat → Bool} {send : Bytes → Bytes → Int}
    (hr : ∀ n, running n = true) (hs : SendsSucceed send) : (mtBlocking running send).Succeeds := by
  refine ⟨fun o => hr o.loads, fun result o hne => ?_⟩
  have hpos := hs o.sent result hne
  exact ⟨_, if_neg (by omega)⟩

theorem nonBlocking_succeeds (epollerr : Bool) : (nonBlocking epollerr).Succeeds :=
  ⟨fun _ => rfl, fun _ _ _ => ⟨_, rfl⟩⟩

/-- The reads of a `DoRead` end without an error. -/
def ReadEnd.Graceful : ReadEnd → Prop
  | .closed => True
  | .failed again _ => again = true

instance : DecidablePred ReadEnd.Graceful
  | .closed => .isTrue trivial
  | .failed again _ => instDecidableEqBool again true

theorem Connection.doRead_graceful (epollerr : Bool) {c : Connection σ} (hf : c.conn.fault = none)
    (chunks : List Bytes) {last : ReadEnd} (hl : last.Graceful) :
    c.doRead S epollerr chunks last = { c with
      conn := (c.conn.readLoop S (nonBlocking epollerr) c.pending chunks).1
      pending := (c.conn.readLoop S (nonBlocking epollerr) c.pending chunks).2
      alive := c.alive &&
        (c.conn.readLoop S (nonBlocking epollerr) c.pending chunks).1.fault.isNone } := by
  have hconn : { c.conn with fault := none } = c.conn := by rw [← hf]
  have hafter : ∀ d : Conn σ, afterReads d last = d := by
    intro d
    cases last with
    | closed => rfl
    | failed again strerror =>
      obtain rfl : again = true := hl
      rfl
  simp only [doRead, hafter]
  rw [hconn]

/-- `DoRead` called any number of times. -/
theorem Connection.serve_feed (epollerr : Bool) {c : Connection σ} (h : c.conn.Ready)
    (ha : c.alive = true) (calls : List (List Bytes × ReadEnd))
    (hl : ∀ call ∈ calls, call.2.Graceful) :
    (c.serve S epollerr calls).conn.unplaced =
      (calls.flatMap Prod.fst).flatten.foldl (Conn.feed S) c.conn := by
  induction calls generalizing c with
  | nil => simp [serve, Conn.unplaced_of_alive h.alive]
  | cons call calls ih =>
    obtain ⟨chunks, last⟩ := call
    have hread := Conn.readLoop_feed (S := S) (nonBlocking_succeeds epollerr) h c.pending chunks
    have hdo := doRead_graceful (S := S) epollerr h.alive chunks (hl _ List.mem_cons_self)
    simp only [serve, ha, if_true, List.flatMap_cons, List.flatten_append, List.foldl_append, hdo]
    rw [← hread]
    cases hf : (c.conn.readLoop S (nonBlocking epollerr) c.pending chunks).1.fault with
    | some e =>
      rw [Conn.foldl_feed_of_fault (by simp [Conn.unplaced, hf])]
      cases calls <;> simp [serve]
    | none =>
      rw [Conn.unplaced_of_alive hf] at hread ⊢
      refine ih ?_ (by simp) fun call hc => hl call (by simp [hc])
      rw [hread] at hf ⊢
      exact Conn.foldl_feed_ready h _ hf

/-- The same commands have run, with the same arguments, and the same is left to be done. -/
structure Conn.SameOutcome (c d : Conn σ) : Prop where
  executed : c.executed = d.executed
  storage : c.storage = d.storage
  parser : c.parser = d.parser
  command : c.commandToExecute = d.commandToExecute
  argument : c.argumentForCommand = d.argumentForCommand
  remains : c.commandToExecute.isSome → c.argRemains = d.argRemains
  fault : c.fault.isSome = d.fault.isSome

theorem Conn.sameOutcome_of_unplaced {c d : Conn σ} (h : c.unplaced = d.unplaced) :
    c.SameOutcome d := by
  simp only [unplaced, mk.injEq] at h
  obtain ⟨hp, hc, hr, ha, hs, hf, he, -, -⟩ := h
  exact ⟨he, hs, hp, hc, ha, fun _ => hr, by simpa using congrArg Option.isSome hf⟩

/-- Why nothing beyond a point was taken: there was nothing, the header that ends there is not a
command, or the parser throws at the very next byte. -/
def Conn.StoppedBefore (c : Conn σ) (rest : Bytes) : Prop :=
  match c.fault with
  | none => rest = []
  | some e =>
    (c.parser.parseComplete = true ∧ c.parser.build = .thrown e ∧ e = .unsupportedCommand) ∨
    ∃ b rest', rest = b :: rest' ∧ c.parser.step 0 b = .error e.unplaced

/-- Every byte up to the exception, if any, has gone to exactly one consumer, and the loop never
gave up on a buffer. -/
def Conn.Accounted (c : Conn σ) (stream : Bytes) : Prop :=
  c.stalled = false ∧
    ∃ rest, stream = c.consumed.map Prod.snd ++ rest ∧ c.StoppedBefore rest

/-- A live connection has taken the whole stream. -/
theorem Conn.accounted_of_alive (ha : c.fault = none) {stream : Bytes} :
    c.Accounted stream ↔ c.stalled = false ∧ stream = c.consumed.map Prod.snd := by
  simp [Accounted, StoppedBefore, ha]

theorem Conn.runCommand_accounted (ha : c.fault = none) (hst : c.stalled = false) {stream : Bytes}
    (hs : stream = c.consumed.map Prod.snd) : (c.runCommand S).Accounted stream := by
  have hhist : (c.runCommand S).consumed = c.consumed ∧ (c.runCommand S).stalled = c.stalled := by
    simp only [runCommand]
    split <;> try split_ifs
    all_goals exact ⟨rfl, rfl⟩
  rw [accounted_of_alive (by rw [runCommand_fault, ha]), hhist.1, hhist.2]
  exact ⟨hst, hs⟩

theorem Conn.feed_accounted (hr : c.fault = none → c.Ready) {stream : Bytes}
    (h : c.Accounted stream) (b : UInt8) : (c.feed S b).Accounted (stream ++ [b]) := by
  obtain ⟨hst, rest, hs, hstop⟩ := h
  cases hf : c.fault with
  | some e =>
    have hfeed : c.feed S b = c := by simp [feed, hf]
    rw [hfeed]
    refine ⟨hst, rest ++ [b], by simp [hs], ?_⟩
    simp only [StoppedBefore, hf] at hstop ⊢
    rcases hstop with hthrown | ⟨b', rest', hrest, hstep⟩
    · exact .inl hthrown
    · exact .inr ⟨b', rest' ++ [b], by simp [hrest], hstep⟩
  | none =>
    have hready := hr hf
    simp only [StoppedBefore, hf] at hstop
    rw [hstop, List.append_nil] at hs
    cases hc : c.commandToExecute with
    | some cmd =>
      rw [feed_argument hready (by simp [hc])]
      exact runCommand_accounted (c := c.filled [b]) hf hst (by simp [filled, hs])
    | none =>
      obtain ⟨hp, hsound, -⟩ := hready.idle hc
      cases hstep : c.parser.step 0 b with
      | error e =>
        rw [feed_error hready hc hstep]
        refine ⟨hst, [b], by rw [hs], .inr ⟨b, [], rfl, ?_⟩⟩
        rw [Parser.step_unplaced hstep]
        exact hstep
      | ok p =>
        have htaken : stream ++ [b] = (c.parsed p [b]).consumed.map Prod.snd := by simp [parsed, hs]
        rw [feed_header hready hc hstep]
        split_ifs with hcomplete
        · have hs' := Parser.step_sound hsound hp hstep
          rcases buildCommand_cases (c := c.parsed p [b]) hs' hcomplete with ⟨cmd, -, hb⟩ | ⟨ht, hb⟩
          · rw [hb]
            apply runCommand_accounted
            · exact hf
            · exact hst
            · exact htaken
          · rw [hb, runCommand_of_idle (by exact hc)]
            exact ⟨hst, [], by rw [htaken, List.append_nil], .inl ⟨hcomplete, ht, rfl⟩⟩
        · exact (accounted_of_alive (c := c.parsed p [b]) hf).mpr ⟨hst, htaken⟩

theorem Conn.foldl_feed_accounted (hr : c.fault = none → c.Ready) (stream : Bytes)
    (h : c.Accounted stream) (bytes : Bytes) :
    (bytes.foldl (Conn.feed S) c).Accounted (stream ++ bytes) := by
  induction bytes generalizing c stream with
  | nil => simpa using h
  | cons b bytes ih =>
    have hr' : (c.feed S b).fault = none → (c.feed S b).Ready := by
      intro hf
      cases hc : c.fault with
      | none => exact feed_ready (hr hc) b hf
      | some e => simp [feed, hc] at hf
    simpa using ih hr' _ (feed_accounted hr h b)

theorem Conn.accounted_of_unplaced {stream : Bytes} (h : c.unplaced.Accounted stream) :
    c.Accounted stream := by
  cases hf : c.fault with
  | none => rwa [unplaced_of_alive hf] at h
  | some e =>
    obtain ⟨hst, rest, hs, hstop⟩ := h
    refine ⟨hst, rest, hs, ?_⟩
    simp only [StoppedBefore, unplaced, hf, Option.map_some] at hstop ⊢
    rcases hstop with ⟨hp, hb, he⟩ | ⟨b, rest', hrest, hstep⟩
    · have he' : e = .unsupportedCommand := by
        cases e <;> simp [Error.unplaced] at he ⊢
      subst he'
      exact .inl ⟨hp, hb, rfl⟩
    · refine .inr ⟨b, rest', hrest, ?_⟩
      rw [hstep]
      cases e <;> rfl

/-- A stream cut into what successive `read` calls return. -/
def Cut (stream : Bytes) (chunks : List Bytes) : Prop :=
  chunks.flatten = stream ∧ ∀ chunk ∈ chunks, 1 ≤ chunk.length ∧ chunk.length ≤ 4096

/-- The states of a new connection that has received a stream, in any of the servers and however
the stream was cut; all sends succeed and the running flag stays true. -/
inductive Received (S : Storage σ) (storage : σ) (argRemains : Nat) (negative : Bool)
    (stream : Bytes) : Conn σ → Prop
  | stBlocking {send : Bytes → Bytes → Int} {cut : List Bytes} :
    SendsSucceed send → Cut stream cut →
    Received S storage argRemains negative stream
      ((Conn.create storage argRemains negative).readLoop S (stBlocking send) ⟨[], 0⟩ cut).1
  | mtBlocking {running : Nat → Bool} {send : Bytes → Bytes → Int} {cut : List Bytes} :
    (∀ n, running n = true) → SendsSucceed send → Cut stream cut →
    Received S storage argRemains negative stream
      ((Conn.create storage argRemains negative).readLoop S (mtBlocking running send) ⟨[], 0⟩ cut).1
  | nonBlocking {epollerr : Bool} {calls : List (List Bytes × ReadEnd)} :
    (∀ call ∈ calls, ReadEnd.Graceful call.2) → Cut stream (calls.flatMap Prod.fst) →
    Received S storage argRemains negative stream
      ((Connection.start epollerr storage argRemains negative).serve S epollerr calls).conn

/-- Every server leads where the bytes lead one by one. -/
theorem Received.feed {storage : σ} {argRemains : Nat} {negative : Bool} {stream : Bytes}
    (h : Received S storage argRemains negative stream c) :
    c.unplaced = stream.foldl (Conn.feed S) (Conn.create storage argRemains negative) := by
  have hready := Conn.create_ready storage argRemains negative
  cases h with
  | stBlocking hs hcut => rw [Conn.readLoop_feed (stBlocking_succeeds hs) hready, hcut.1]
  | mtBlocking hr hs hcut => rw [Conn.readLoop_feed (mtBlocking_succeeds hr hs) hready, hcut.1]
  | @nonBlocking epollerr calls hl hcut =>
    rw [Connection.serve_feed epollerr hready rfl calls hl, hcut.1]
    rfl

theorem Received.executed {storage : σ} {argRemains : Nat} {negative : Bool} {stream : Bytes}
    (h : Received S storage argRemains negative stream c) : c.executed =
      (stream.foldl (Conn.feed S) (Conn.create storage argRemains negative)).executed := by
  rw [← h.feed]
  rfl

theorem Received.accounted {storage : σ} {argRemains : Nat} {negative : Bool} {stream : Bytes}
    (h : Received S storage argRemains negative stream c) : c.Accounted stream := by
  have hready := Conn.create_ready storage argRemains negative
  apply Conn.accounted_of_unplaced
  rw [h.feed]
  exact Conn.foldl_feed_accounted (fun _ => hready) [] ⟨rfl, [], rfl, rfl⟩ stream

/-- However a stream is cut, a connection runs the same commands, ends in the same state and
throws or does not, and all bytes up to there are accounted for. -/
theorem chunking_independence (S : Storage σ) (storage : σ) (argRemains : Nat) (negative : Bool)
    (stream : Bytes) (c d : Conn σ) (hc : Received S storage argRemains negative stream c)
    (hd : Received S storage argRemains negative stream d) :
    c.SameOutcome d ∧ c.Accounted stream :=
  ⟨Conn.sameOutcome_of_unplaced (hc.feed.trans hd.feed.symm), hc.accounted⟩

/-- A command and an argument in one piece, and cut inside the name, the CRLF and the body. -/
theorem chunking_independence_append :
    let c := ((Conn.create (some (Storage.SimpleLRU.create 64)) 3 true).readLoop simpleLRU
      (stBlocking fun _ data => data.length) ⟨[], 0⟩ [text "append a 0 0 1\r\nb\r\nget a\r\nx y"]).1
    let d := ((Connection.start true (some (Storage.SimpleLRU.create 64)) 3 true).serve simpleLRU true
      [([text "app", text "end a 0 0 1\r"], .failed true []),
        ([text "\nb", text "\r\nget a\r\nx y"], .closed)]).conn
    c.SameOutcome d ∧ c.Accounted (text "append a 0 0 1\r\nb\r\nget a\r\nx y") := by
  refine chunking_independence simpleLRU (some (Storage.SimpleLRU.create 64)) 3 true _ _ _
    (.stBlocking ?_ ⟨rfl, by decide⟩) (.nonBlocking ?_ ⟨rfl, by decide⟩)
  · intro sent data hne
    exact Int.natCast_pos.mpr (List.length_pos_iff.mpr hne)
  · simp [ReadEnd.Graceful]

end Sysprog.Network
