import Sysprog.Protocol.Parser

namespace Sysprog.Network

open Execute Protocol

/-- A command that has run, with its argument and its result. -/
structure Executed where
  command : Command
  argument : Bytes
  result : Bytes
  deriving DecidableEq

/-- The two places a received byte can go to. -/
inductive Consumer where
  | parser
  | argument
  deriving DecidableEq

/-- The state of one connection. -/
structure Conn (σ : Type) where
  parser : Parser
  /-- Last command parsed out of the stream. -/
  commandToExecute : Option Command
  /-- How many bytes to read from the stream to get the command argument. -/
  argRemains : Nat
  argumentForCommand : Bytes
  storage : σ
  /-- The exception that has left the loops. -/
  fault : Option Error
  /-- History: the commands that have run, where each byte has gone, and whether the break for
  `parsed == 0` has been taken. -/
  executed : List Executed
  consumed : List (Consumer × UInt8)
  stalled : Bool

/-- What the hand-made copies of the loop do differently, over the state `ω` of their output. -/
structure FrontEnd (ω : Type) where
  /-- `running.load()` in the conditions of the loops. -/
  runningLoad : ω → Bool × ω
  /-- What becomes of the result of a command. -/
  respond : Bytes → ω → Except Error ω

variable {σ ω : Type}

/-- A connection before its first byte. `arg_remains` and a flag of the parser are uninitialised. -/
def Conn.create (storage : σ) (argRemains : Nat) (negative : Bool) : Conn σ :=
  ⟨.create negative, none, argRemains, [], storage, none, [], [], false⟩

/-- `if (arg_remains > 0) arg_remains += 2`. -/
def withDelimiter (argRemains : Nat) : Nat := if argRemains > 0 then argRemains + 2 else argRemains

/-- The header is complete: `command_to_execute = parser.Build(arg_remains)`. -/
def Conn.buildCommand (c : Conn σ) : Conn σ :=
  match c.parser.build with
  | .null => { c with commandToExecute := none, argRemains := withDelimiter c.argRemains }
  | .command cmd bodySize =>
    { c with commandToExecute := some cmd, argRemains := withDelimiter bodySize }
  | .thrown e => { c with argRemains := c.parser.bytes, fault := some e }

/-- The parser has gone through some bytes. -/
def Conn.parsed (c : Conn σ) (parser : Parser) (bytes : Bytes) : Conn σ :=
  { c with parser := parser, consumed := c.consumed ++ bytes.map (Prod.mk .parser) }

/-- Some bytes have gone to the argument. -/
def Conn.filled (c : Conn σ) (bytes : Bytes) : Conn σ :=
  { c with
    argumentForCommand := c.argumentForCommand ++ bytes
    argRemains := c.argRemains - bytes.length
    consumed := c.consumed ++ bytes.map (Prod.mk .argument) }

/-- `Parse` has returned or thrown. What is left of the buffer, unless the loop is left. -/
def Conn.afterParse (c : Conn σ) (r : Parser.Parsed) (buffer : Bytes) : Conn σ × Option Bytes :=
  let c := c.parsed r.parser (buffer.take r.pos)
  match r.error with
  | some e => ({ c with fault := some e }, none)
  | none =>
    let c := if r.parser.parseComplete then c.buildCommand else c
    if c.fault.isSome then (c, none)
    else if r.pos = 0 then ({ c with stalled := true }, none)
    else (c, some (buffer.drop r.pos))

/-- First phase of the inner loop: there is no command yet. -/
def Conn.parsePhase (c : Conn σ) (buffer : Bytes) : Conn σ × Option Bytes :=
  match c.commandToExecute with
  | some _ => (c, some buffer)
  | none => c.afterParse (c.parser.parse buffer) buffer

/-- Second phase: there is a command, but we still wait for its argument. -/
def Conn.fillPhase (c : Conn σ) (buffer : Bytes) : Conn σ × Bytes :=
  if c.commandToExecute.isSome ∧ c.argRemains > 0 then
    let toRead := min c.argRemains buffer.length
    (c.filled (buffer.take toRead), buffer.drop toRead)
  else (c, buffer)

section Loops

variable (S : Storage σ) (f : FrontEnd ω)

/-- `command_to_execute->Execute(*pStorage, argument_for_command, result)`. -/
def Conn.execute (c : Conn σ) (cmd : Command) : Bytes × Conn σ :=
  let (result, storage) := cmd.execute S c.argumentForCommand c.storage
  (result, { c with
    storage := storage
    executed := c.executed ++ [⟨cmd, c.argumentForCommand, result⟩] })

/-- Third phase: there is a command and its argument. -/
def Conn.runPhase (c : Conn σ) (o : ω) : Conn σ × ω :=
  match c.commandToExecute with
  | none => (c, o)
  | some cmd =>
    if c.argRemains = 0 then
      let (result, c) := c.execute S cmd
      match f.respond result o with
      | .error e => ({ c with fault := some e }, o)
      | .ok o =>
        -- prepare for the next command
        ({ c with commandToExecute := none, argumentForCommand := [], parser := c.parser.reset }, o)
    else (c, o)

/-- One pass of the inner loop. -/
def Conn.pass (c : Conn σ) (o : ω) (buffer : Bytes) : (Conn σ × ω) × Option Bytes :=
  match c.parsePhase buffer with
  | (c, none) => ((c, o), none)
  | (c, some buffer) =>
    let (c, buffer) := c.fillPhase buffer
    let (c, o) := c.runPhase S f o
    ((c, o), if c.fault.isSome then none else some buffer)

/-- The inner loop on what one `read` has returned. From the second pass on, each takes a byte. -/
def Conn.processLoop : Nat → Conn σ → ω → Bytes → Conn σ × ω
  | 0, c, o, _ => (c, o)
  | fuel + 1, c, o, buffer =>
    let (running, o) := f.runningLoad o
    if running ∧ buffer ≠ [] then
      match c.pass S f o buffer with
      | ((c, o), none) => (c, o)
      | ((c, o), some buffer) => processLoop fuel c o buffer
    else (c, o)

def Conn.process (c : Conn σ) (o : ω) (buffer : Bytes) : Conn σ × ω :=
  c.processLoop S f (buffer.length + 2) o buffer

/-- The outer loop, over the results of `read` that carry bytes. -/
def Conn.readLoop (c : Conn σ) (o : ω) : List Bytes → Conn σ × ω
  | [] => (c, o)
  | chunk :: chunks =>
    let (running, o) := f.runningLoad o
    if running then
      let (c, o) := c.process S f o chunk
      if c.fault.isSome then (c, o) else readLoop c o chunks
    else (c, o)

end Loops

/-- A blocking socket. What `send` returns may depend on all that was handed to it before. -/
structure Socket where
  sent : Bytes
  loads : Nat

/-- `STblocking::ServerImpl::OnRun`. -/
def stBlocking (send : Bytes → Bytes → Int) : FrontEnd Socket where
  runningLoad o := (true, o)
  respond result o :=
    let result := result ++ crlf
    if send o.sent result ≤ 0 then .error .sendFailed else .ok { o with sent := o.sent ++ result }

/-- `MTblocking::ServerImpl::_connection_processing`; it sends the bare result. -/
def mtBlocking (running : Nat → Bool) (send : Bytes → Bytes → Int) : FrontEnd Socket where
  runningLoad o := (running o.loads, { o with loads := o.loads + 1 })
  respond result o :=
    if send o.sent result ≤ 0 then .error .sendFailed else .ok { o with sent := o.sent ++ result }

/-- The epoll interest a connection asks for. -/
structure Events where
  epollin : Bool
  epollout : Bool
  epollrdhup : Bool
  epollerr : Bool
  deriving DecidableEq

/-- Output side of a non-blocking `Connection`. -/
structure Pending where
  results : Bytes
  events : Events

/-- `DoRead` of the two non-blocking connections; MTnonblock also asks for `EPOLLERR`. -/
def nonBlocking (epollerr : Bool) : FrontEnd Pending where
  runningLoad o := (true, o)
  respond result o :=
    .ok ⟨o.results ++ (result ++ crlf), ⟨true, true, true, epollerr⟩⟩

/-- What ends the reads of one `DoRead`: end of stream, or -1 with `errno`. -/
inductive ReadEnd where
  | closed
  | failed (again : Bool) (strerror : Bytes)

/-- A `Connection` of the non-blocking servers, with the bytes its `send` calls have accepted. -/
structure Connection (σ : Type) where
  conn : Conn σ
  pending : Pending
  alive : Bool
  accepted : Bytes

namespace Connection

variable (S : Storage σ) (epollerr : Bool)

/-- A new connection after `Start`. -/
def start (storage : σ) (argRemains : Nat) (negative : Bool) : Connection σ :=
  ⟨.create storage argRemains negative, ⟨[], ⟨true, false, true, epollerr⟩⟩, true, []⟩

/-- After the loop of `DoRead`: the end of the stream and `EAGAIN` are no errors. -/
def afterReads (c : Conn σ) : ReadEnd → Conn σ
  | .closed | .failed true _ => c
  | .failed false strerror =>
    if c.fault.isSome then c else { c with fault := some (.readFailed strerror) }

/-- `DoRead`, given what its `read` calls return. -/
def doRead (c : Connection σ) (chunks : List Bytes) (last : ReadEnd) : Connection σ :=
  let (conn, pending) :=
    { c.conn with fault := none }.readLoop S (nonBlocking epollerr) c.pending chunks
  let conn := afterReads conn last
  { c with conn := conn, pending := pending, alive := c.alive && conn.fault.isNone }

/-- `send_b`: the result of `send` in an `unsigned long`. -/
def unsignedLong (n : Int) : Nat := (n % 2 ^ 64).toNat

/-- `DoWrite`, given what `send` returns. -/
def doWrite (c : Connection σ) (sendResult : Int) : Connection σ :=
  let c := { c with accepted := c.accepted ++ c.pending.results.take sendResult.toNat }
  let sendB := unsignedLong sendResult
  if sendB ≤ 0 then { c with alive := false }
  else if sendB ≥ c.pending.results.length then
    { c with pending := ⟨[], ⟨true, false, true, epollerr⟩⟩ }
  else
    { c with pending := ⟨c.pending.results.drop sendB, ⟨true, true, true, epollerr⟩⟩ }

/-- `DoRead` called for one event after another, while the connection is alive. -/
def serve (c : Connection σ) : List (List Bytes × ReadEnd) → Connection σ
  | [] => c
  | (chunks, last) :: calls => if c.alive then (c.doRead S epollerr chunks last).serve calls else c

/-- `DoRead` and then `DoWrite` for one event after another, while the connection is alive; every
`send` takes all it is given. -/
def exchange (c : Connection σ) : List (List Bytes × ReadEnd) → Connection σ
  | [] => c
  | (chunks, last) :: calls =>
    if c.alive then
      let c := c.doRead S epollerr chunks last
      let c := if c.alive then c.doWrite epollerr c.pending.results.length else c
      c.exchange calls
    else c

end Connection

end Sysprog.Network
