import Sysprog.Lib.Run
import Sysprog.Network.Connection

namespace Sysprog.Protocol.Parser

variable {p q : Parser}

/-- Two parsers that can differ in `negative` alone, and not even in it where it will be read before
it is written. -/
structure Alike (p q : Parser) : Prop where
  same : p = { q with negative := p.negative }
  negative : p.state = .spExprTimeStart ∨ p.state = .spExprTime → p.negative = q.negative

theorem alike_reset (p : Parser) (negative : Bool) : p.reset.Alike (create negative) :=
  ⟨rfl, by simp [reset]⟩

theorem Alike.reset (h : p.Alike q) : p.reset.Alike q.reset :=
  ⟨by rw [h.same]; rfl, by simp [Parser.reset]⟩

theorem Alike.build (h : p.Alike q) : p.build = q.build := by
  rw [h.same]
  rfl

theorem Alike.bytes (h : p.Alike q) : p.bytes = q.bytes := by rw [h.same]

theorem Alike.parseComplete (h : p.Alike q) : p.parseComplete = q.parseComplete := by rw [h.same]

/-- One byte makes the same of both. -/
theorem Alike.step (h : p.Alike q) (pos : Nat) (c : UInt8) :
    (∃ e, p.step pos c = .error e ∧ q.step pos c = .error e) ∨
    ∃ p' q', p.step pos c = .ok p' ∧ q.step pos c = .ok q' ∧ p'.Alike q' := by
  obtain ⟨state, name, keys, flags, exprtime, bytes, n, curKey, complete⟩ := q
  obtain ⟨m, rfl⟩ : ∃ m, p = ⟨state, name, keys, flags, exprtime, bytes, m, curKey, complete⟩ :=
    ⟨p.negative, h.same⟩
  have hn := h.negative
  cases state with
  | sName =>
    simp only [Parser.step, stepName]
    split_ifs
    all_goals first
      | exact .inl ⟨_, rfl, rfl⟩
      | exact .inr ⟨_, _, rfl, rfl, ⟨rfl, by simp⟩⟩
  | spKey =>
    simp only [Parser.step, stepPutKey]
    split_ifs
    all_goals exact .inr ⟨_, _, rfl, rfl, ⟨rfl, by simp⟩⟩
  | sgKey =>
    simp only [Parser.step, stepGetKey]
    split_ifs
    all_goals first
      | exact .inl ⟨_, rfl, rfl⟩
      | exact .inr ⟨_, _, rfl, rfl, ⟨rfl, by simp⟩⟩
  | spFlags =>
    -- the flag is written on the way to the expiration time
    simp only [Parser.step, stepFlags]
    split_ifs
    all_goals first
      | exact .inl ⟨_, rfl, rfl⟩
      | exact .inr ⟨_, _, rfl, rfl, ⟨rfl, by simp⟩⟩
  | spExprTimeStart =>
    obtain rfl : m = n := hn (.inl rfl)
    cases Parser.step ⟨.spExprTimeStart, name, keys, flags, exprtime, bytes, m, curKey, complete⟩ pos c with
    | error e => exact .inl ⟨e, rfl, rfl⟩
    | ok r => exact .inr ⟨r, r, rfl, rfl, ⟨rfl, fun _ => rfl⟩⟩
  | spExprTime =>
    obtain rfl : m = n := hn (.inr rfl)
    cases Parser.step ⟨.spExprTime, name, keys, flags, exprtime, bytes, m, curKey, complete⟩ pos c with
    | error e => exact .inl ⟨e, rfl, rfl⟩
    | ok r => exact .inr ⟨r, r, rfl, rfl, ⟨rfl, fun _ => rfl⟩⟩
  | spBytes =>
    simp only [Parser.step, stepBytes]
    split_ifs
    all_goals first
      | exact .inl ⟨_, rfl, rfl⟩
      | exact .inr ⟨_, _, rfl, rfl, ⟨rfl, by simp⟩⟩
  | sLF =>
    simp only [Parser.step, stepLF]
    split_ifs
    all_goals first
      | exact .inl ⟨_, rfl, rfl⟩
      | exact .inr ⟨_, _, rfl, rfl, ⟨rfl, by simp⟩⟩
  | sCR => exact .inl ⟨_, rfl, rfl⟩

theorem Alike.parseLoop (h : p.Alike q) (pos : Nat) (input : Bytes) :
    (p.parseLoop pos input).parser.Alike (q.parseLoop pos input).parser ∧
    (p.parseLoop pos input).pos = (q.parseLoop pos input).pos ∧
    (p.parseLoop pos input).error = (q.parseLoop pos input).error := by
  induction input generalizing p q pos with
  | nil => exact ⟨h, rfl, rfl⟩
  | cons c input ih =>
    simp only [Parser.parseLoop, h.parseComplete]
    split_ifs
    · exact ⟨h, rfl, rfl⟩
    · rcases h.step pos c with ⟨e, hp, hq⟩ | ⟨p', q', hp, hq, h'⟩
      · rw [hp, hq]
        exact ⟨h, rfl, rfl⟩
      · rw [hp, hq]
        exact ih h' (pos + 1)

/-- A call on a parser. -/
inductive Use where
  | parse (input : Bytes)
  | build
  | reset

/-- What the calls give back: the flag, `parsed` and the exception of `Parse`, and what `Build`
makes. -/
inductive Result where
  | parsed (complete : Bool) (pos : Nat) (error : Option Error)
  | built (b : Built)
  | none
  deriving DecidableEq

def use : Use → Parser → Option (Result × Parser)
  | .parse input, p =>
    let r := p.parse input
    some (.parsed r.parser.parseComplete r.pos r.error, r.parser)
  | .build, p => some (.built p.build, p)
  | .reset, p => some (.none, p.reset)

/-- Parsers that are alike answer alike from then on. -/
theorem Alike.run_use (h : p.Alike q) (uses : List Use) :
    (run use uses p).map Prod.fst = (run use uses q).map Prod.fst := by
  induction uses generalizing p q with
  | nil => rfl
  | cons u uses ih =>
    obtain ⟨r, p', q', hp, hq, h'⟩ : ∃ r p' q', use u p = some (r, p') ∧ use u q = some (r, q') ∧
        p'.Alike q' := by
      cases u with
      | parse input =>
        obtain ⟨halike, hpos, herror⟩ := h.parseLoop 0 input
        refine ⟨_, _, _, rfl, ?_, halike⟩
        simp only [use, parse, hpos, herror, halike.parseComplete]
      | build => exact ⟨_, _, _, rfl, by simp only [use, h.build], h⟩
      | reset => exact ⟨_, _, _, rfl, rfl, h.reset⟩
    rw [run_cons_outputs hp, run_cons_outputs hq, ih h']

end Sysprog.Protocol.Parser

namespace Sysprog.Network

open Execute Protocol

variable {σ ω : Type}

/-- A client of the STblocking server: what the `read` calls on its socket return, how they end, and
what `send` returns, which may depend on all that was handed to it before. -/
structure Client where
  chunks : List Bytes
  last : Option Bytes
  send : Bytes → Bytes → Int

/-- What a client gets out of its connection: its commands with their arguments and results, the
bytes sent back, and the exception that has ended it. -/
structure Outcome where
  executed : List Executed
  sent : Bytes
  fault : Option Error
  deriving DecidableEq

/-- After the loop: any end but the end of the stream is an error. -/
def Conn.closed (c : Conn σ) : Option Bytes → Conn σ
  | none => c
  | some strerror => if c.fault.isSome then c else { c with fault := some (.readFailed strerror) }

/-- We are done with this connection: prepare for the next one. The history starts anew. -/
def Conn.next (c : Conn σ) : Conn σ :=
  { c with
    commandToExecute := none, argumentForCommand := [], parser := c.parser.reset
    fault := none, executed := [], consumed := [], stalled := false }

/-- One pass of the loop of `STblocking::ServerImpl::OnRun`. -/
def Conn.serveClient (S : Storage σ) (client : Client) (c : Conn σ) : Outcome × Conn σ :=
  let (c, o) := c.readLoop S (stBlocking client.send) ⟨[], 0⟩ client.chunks
  let c := c.closed client.last
  (⟨c.executed, o.sent, c.fault⟩, c.next)

/-- `OnRun`, over the clients it accepts. -/
def Conn.onRun (S : Storage σ) (c : Conn σ) : List Client → List Outcome × Conn σ
  | [] => ([], c)
  | client :: clients =>
    let (outcome, c) := c.serveClient S client
    let (outcomes, c) := c.onRun S clients
    (outcome :: outcomes, c)

/-- Two connections that can differ in what no code path reads before writing it. -/
structure Conn.Alike (c d : Conn σ) : Prop where
  parser : c.parser.Alike d.parser
  argRemains : c.commandToExecute.isSome → c.argRemains = d.argRemains
  same : c = { d with parser := c.parser, argRemains := c.argRemains }

namespace Conn.Alike

variable {S : Storage σ} {f : FrontEnd ω} {c d : Conn σ}

theorem command (h : c.Alike d) : c.commandToExecute = d.commandToExecute := by rw [h.same]

theorem fault (h : c.Alike d) : c.fault = d.fault := by rw [h.same]

theorem executed (h : c.Alike d) : c.executed = d.executed := by rw [h.same]

/-- A connection left behind and a new one. -/
theorem next_create (c : Conn σ) (argRemains : Nat) (negative : Bool) :
    c.next.Alike (.create c.storage argRemains negative) :=
  ⟨c.parser.alike_reset negative, by simp [Conn.next], rfl⟩

theorem buildCommand (h : c.Alike d) : c.buildCommand.Alike d.buildCommand := by
  obtain ⟨q, command, n, argument, storage, fault, executed, consumed, stalled⟩ := d
  obtain ⟨p, m, rfl⟩ : ∃ p m, c = ⟨p, command, m, argument, storage, fault, executed, consumed, stalled⟩ :=
    ⟨c.parser, c.argRemains, h.same⟩
  have hb : p.build = q.build := h.parser.build
  simp only [Conn.buildCommand, hb]
  cases q.build with
  | null => exact ⟨h.parser, by simp, rfl⟩
  | command cmd bodySize => exact ⟨h.parser, fun _ => rfl, rfl⟩
  | thrown e => exact ⟨h.parser, fun _ => h.parser.bytes, rfl⟩

theorem parsed (h : c.Alike d) {p q : Parser} (hp : p.Alike q) (hc : c.commandToExecute = none)
    (bytes : Bytes) : (c.parsed p bytes).Alike (d.parsed q bytes) := by
  refine ⟨hp, by simp [Conn.parsed, hc], ?_⟩
  simp only [Conn.parsed]
  rw [h.same]

theorem parsePhase (h : c.Alike d) (buffer : Bytes) :
    (c.parsePhase buffer).1.Alike (d.parsePhase buffer).1 ∧
    (c.parsePhase buffer).2 = (d.parsePhase buffer).2 := by
  simp only [Conn.parsePhase, ← h.command]
  cases hc : c.commandToExecute with
  | some cmd => exact ⟨h, rfl⟩
  | none =>
    obtain ⟨hparser, hpos, herror⟩ := h.parser.parseLoop 0 buffer
    change (c.parser.parse buffer).parser.Alike (d.parser.parse buffer).parser at hparser
    change (c.parser.parse buffer).pos = (d.parser.parse buffer).pos at hpos
    change (c.parser.parse buffer).error = (d.parser.parse buffer).error at herror
    have hd := h.parsed hparser hc (buffer.take (d.parser.parse buffer).pos)
    simp only [afterParse, hpos, herror, hparser.parseComplete]
    cases (d.parser.parse buffer).error with
    | some e =>
      refine ⟨⟨hd.parser, hd.argRemains, ?_⟩, rfl⟩
      dsimp only
      rw [hd.same]
    | none =>
      have hbuilt : (if (d.parser.parse buffer).parser.parseComplete = true then
            (c.parsed (c.parser.parse buffer).parser (buffer.take (d.parser.parse buffer).pos)).buildCommand
          else c.parsed (c.parser.parse buffer).parser (buffer.take (d.parser.parse buffer).pos)).Alike
          (if (d.parser.parse buffer).parser.parseComplete = true then
            (d.parsed (d.parser.parse buffer).parser (buffer.take (d.parser.parse buffer).pos)).buildCommand
          else d.parsed (d.parser.parse buffer).parser (buffer.take (d.parser.parse buffer).pos)) := by
        split_ifs
        · exact hd.buildCommand
        · exact hd
      dsimp only
      rw [hbuilt.fault]
      split_ifs at hbuilt ⊢
      all_goals first
        | exact ⟨hbuilt, rfl⟩
        | refine ⟨⟨hbuilt.parser, hbuilt.argRemains, ?_⟩, rfl⟩
          dsimp only
          rw [hbuilt.same]

theorem fillPhase (h : c.Alike d) (buffer : Bytes) :
    (c.fillPhase buffer).1.Alike (d.fillPhase buffer).1 ∧
    (c.fillPhase buffer).2 = (d.fillPhase buffer).2 := by
  simp only [Conn.fillPhase, ← h.command]
  cases hc : c.commandToExecute with
  | none => exact ⟨h, rfl⟩
  | some cmd =>
    have hn := h.argRemains (by simp [hc])
    simp only [hn]
    split_ifs
    · refine ⟨⟨h.parser, by simp [Conn.filled, hn], ?_⟩, rfl⟩
      simp only [Conn.filled]
      rw [h.same]
    · exact ⟨h, rfl⟩

theorem runPhase (h : c.Alike d) (o : ω) :
    (c.runPhase S f o).1.Alike (d.runPhase S f o).1 ∧ (c.runPhase S f o).2 = (d.runPhase S f o).2 := by
  obtain ⟨q, command, n, argument, storage, fault, executed, consumed, stalled⟩ := d
  obtain ⟨p, m, rfl⟩ : ∃ p m, c = ⟨p, command, m, argument, storage, fault, executed, consumed, stalled⟩ :=
    ⟨c.parser, c.argRemains, h.same⟩
  cases command with
  | none => exact ⟨h, rfl⟩
  | some cmd =>
    obtain rfl : m = n := h.argRemains rfl
    simp only [Conn.runPhase, Conn.execute]
    split_ifs
    · cases f.respond (cmd.execute S argument storage).1 o with
      | error e => exact ⟨⟨h.parser, fun _ => rfl, rfl⟩, rfl⟩
      | ok o' => exact ⟨⟨h.parser.reset, fun _ => rfl, rfl⟩, rfl⟩
    · exact ⟨h, rfl⟩

theorem pass (h : c.Alike d) (o : ω) (buffer : Bytes) :
    (c.pass S f o buffer).1.1.Alike (d.pass S f o buffer).1.1 ∧
    (c.pass S f o buffer).1.2 = (d.pass S f o buffer).1.2 ∧
    (c.pass S f o buffer).2 = (d.pass S f o buffer).2 := by
  obtain ⟨h1, hrest⟩ := h.parsePhase buffer
  simp only [Conn.pass]
  generalize c.parsePhase buffer = x at h1 hrest ⊢
  generalize d.parsePhase buffer = y at h1 hrest ⊢
  obtain ⟨c1, rest⟩ := x
  obtain ⟨d1, rest'⟩ := y
  obtain rfl : rest = rest' := hrest
  cases rest with
  | none => exact ⟨h1, rfl, rfl⟩
  | some buffer =>
    obtain ⟨h2, hb⟩ := fillPhase h1 buffer
    obtain ⟨h3, ho⟩ := h2.runPhase (S := S) (f := f) o
    refine ⟨h3, ho, ?_⟩
    dsimp only
    rw [h3.fault, hb]

theorem processLoop (h : c.Alike d) (fuel : Nat) (o : ω) (buffer : Bytes) :
    (c.processLoop S f fuel o buffer).1.Alike (d.processLoop S f fuel o buffer).1 ∧
    (c.processLoop S f fuel o buffer).2 = (d.processLoop S f fuel o buffer).2 := by
  induction fuel generalizing c d o buffer with
  | zero => exact ⟨h, rfl⟩
  | succ fuel ih =>
    simp only [Conn.processLoop]
    split_ifs
    · obtain ⟨h1, ho, hrest⟩ := h.pass (S := S) (f := f) (f.runningLoad o).2 buffer
      generalize c.pass S f (f.runningLoad o).2 buffer = x at h1 ho hrest ⊢
      generalize d.pass S f (f.runningLoad o).2 buffer = y at h1 ho hrest ⊢
      obtain ⟨⟨c1, o1⟩, rest⟩ := x
      obtain ⟨⟨d1, o2⟩, rest'⟩ := y
      obtain rfl : o1 = o2 := ho
      obtain rfl : rest = rest' := hrest
      cases rest with
      | none => exact ⟨h1, rfl⟩
      | some buffer => exact ih h1 o1 buffer
    · exact ⟨h, rfl⟩

theorem readLoop (h : c.Alike d) (o : ω) (chunks : List Bytes) :
    (c.readLoop S f o chunks).1.Alike (d.readLoop S f o chunks).1 ∧
    (c.readLoop S f o chunks).2 = (d.readLoop S f o chunks).2 := by
  induction chunks generalizing c d o with
  | nil => exact ⟨h, rfl⟩
  | cons chunk chunks ih =>
    have hprocess : (c.process S f (f.runningLoad o).2 chunk).1.Alike
        (d.process S f (f.runningLoad o).2 chunk).1 ∧
        (c.process S f (f.runningLoad o).2 chunk).2 = (d.process S f (f.runningLoad o).2 chunk).2 :=
      h.processLoop _ _ _
    simp only [Conn.readLoop]
    generalize c.process S f (f.runningLoad o).2 chunk = x at hprocess ⊢
    generalize d.process S f (f.runningLoad o).2 chunk = y at hprocess ⊢
    obtain ⟨c1, o1⟩ := x
    obtain ⟨d1, o2⟩ := y
    obtain ⟨h1, rfl⟩ : c1.Alike d1 ∧ o1 = o2 := hprocess
    dsimp only
    rw [h1.fault]
    split_ifs
    · exact ⟨h1, rfl⟩
    · exact ih h1 o1
    · exact ⟨h, rfl⟩

theorem closed (h : c.Alike d) (last : Option Bytes) : (c.closed last).Alike (d.closed last) := by
  cases last with
  | none => exact h
  | some strerror =>
    simp only [Conn.closed, h.fault]
    split_ifs
    · exact h
    · refine ⟨h.parser, h.argRemains, ?_⟩
      dsimp only
      rw [h.same]

/-- A client gets the same from both, and leaves the storage alike. -/
theorem serveClient (h : c.Alike d) (client : Client) :
    (c.serveClient S client).1 = (d.serveClient S client).1 ∧
    (c.serveClient S client).2.Alike (d.serveClient S client).2 := by
  obtain ⟨h1, ho⟩ := h.readLoop (S := S) (f := stBlocking client.send) ⟨[], 0⟩ client.chunks
  have h2 := closed h1 client.last
  constructor
  · simp only [Conn.serveClient, ho, h2.executed, h2.fault]
  · refine ⟨h2.parser.reset, by simp [Conn.serveClient, Conn.next], ?_⟩
    have hs := congrArg Conn.storage h2.same
    simp only [Conn.serveClient, Conn.next]
    simp only at hs
    rw [hs]

theorem onRun (h : c.Alike d) (clients : List Client) :
    (c.onRun S clients).1 = (d.onRun S clients).1 ∧
    (c.onRun S clients).2.storage = (d.onRun S clients).2.storage := by
  induction clients generalizing c d with
  | nil => exact ⟨rfl, by rw [h.same]; rfl⟩
  | cons client clients ih =>
    obtain ⟨ho, hc⟩ := h.serveClient (S := S) client
    obtain ⟨hos, hs⟩ := ih hc
    simp only [Conn.onRun, ho, hos, hs]
    exact ⟨trivial, trivial⟩

/-- Between two clients the server is like a new one. -/
theorem onRun_create (argRemains : Nat) (negative : Bool)
    (h : c.Alike (.create c.storage argRemains negative)) (clients : List Client) :
    (c.onRun S clients).2.Alike (.create (c.onRun S clients).2.storage argRemains negative) := by
  induction clients generalizing c with
  | nil => exact h
  | cons client clients ih => exact ih (next_create _ argRemains negative)

end Conn.Alike

/-- Whatever earlier clients have sent and wherever it ended, the next ones get from STblocking what a
newly started server with the same storage would give them; and a parser that was reset answers as
a new one does. -/
theorem connections_isolated (S : Storage σ) (storage : σ) (argRemains argRemains' : Nat)
    (negative negative' : Bool) (earlier clients : List Client) (p : Parser) (uses : List Parser.Use) :
    let c := ((Conn.create storage argRemains negative).onRun S earlier).2
    let d := Conn.create c.storage argRemains' negative'
    (c.onRun S clients).1 = (d.onRun S clients).1 ∧
    (c.onRun S clients).2.storage = (d.onRun S clients).2.storage ∧
    (run Parser.use uses p.reset).map Prod.fst =
      (run Parser.use uses (.create negative')).map Prod.fst := by
  intro c d
  have hstart : (Conn.create storage argRemains negative).Alike
      (.create storage argRemains' negative') :=
    ⟨(Parser.create negative).alike_reset negative', by simp [Conn.create], rfl⟩
  have halike : c.Alike d := hstart.onRun_create argRemains' negative' earlier
  obtain ⟨houtcomes, hstorage⟩ := halike.onRun (S := S) clients
  exact ⟨houtcomes, hstorage, (p.alike_reset negative').run_use uses⟩

end Sysprog.Network
