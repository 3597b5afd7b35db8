import Sysprog.Network.Output
import Sysprog.Protocol.Request

namespace Sysprog.Network

open Execute Protocol

variable {σ : Type} {S : Storage σ} {c : Conn σ} {r : Request}

/-- Between two requests. -/
structure Conn.Idle (c : Conn σ) : Prop where
  alive : c.fault = none
  command : c.commandToExecute = none
  fresh : c.parser.Fresh
  argument : c.argumentForCommand = []

theorem Conn.create_idle (storage : σ) (argRemains : Nat) (negative : Bool) :
    (Conn.create storage argRemains negative).Idle :=
  ⟨rfl, rfl, Parser.fresh_create negative, rfl⟩

theorem Conn.Idle.ready (h : c.Idle) : c.Ready := by
  refine ⟨h.alive, fun _ => ⟨h.fresh.incomplete, ?_, h.argument⟩, by simp [h.command]⟩
  have hs := h.fresh.state
  exact ⟨by simp [h.fresh.incomplete], by simp [hs], by simp [hs]⟩

/-- A command and exactly its argument. -/
theorem Conn.foldl_feed_exact (ha : c.fault = none) {cmd : Command}
    (hc : c.commandToExecute = some cmd) {bytes : Bytes} (hl : c.argRemains = bytes.length) :
    bytes.foldl (Conn.feed S) (c.runCommand S) =
      { ((c.filled bytes).execute S cmd).2 with
        commandToExecute := none, argumentForCommand := [], parser := c.parser.reset } := by
  have hfill : c.fillPhase bytes = (c.filled bytes, []) := by
    cases bytes with
    | nil => simp [fillPhase, hl]
    | cons b bytes => simp [fillPhase, hc, hl]
  have hzero : (c.filled bytes).argRemains = 0 := by simp [filled, hl]
  have hcmd : (c.filled bytes).commandToExecute = some cmd := hc
  rw [foldl_feed_fillPhase ha (by simp [hc]), hfill, List.foldl_nil, runCommand, hcmd, hzero]
  rfl

/-- The header of a request leads to its command. -/
theorem Conn.foldl_feed_header (h : c.Idle) (hr : r.WellFormed) (he : r.Expires) (rest : Bytes) :
    ∃ d : Conn σ,
      (r.header ++ rest).foldl (Conn.feed S) c = rest.foldl (Conn.feed S) (d.runCommand S) ∧
      d.fault = none ∧ d.commandToExecute = some r.command ∧
      d.argRemains = withDelimiter r.bodySize ∧ d.argumentForCommand = [] ∧ d.storage = c.storage ∧ d.executed = c.executed := by
  obtain ⟨q, hq, hcomplete, hbuild⟩ := Parser.reads_header h.fresh hr he
  have hparse := hq.parse hcomplete rest
  have hd : (c.parsed q r.header).buildCommand = { c.parsed q r.header with
      commandToExecute := some r.command, argRemains := withDelimiter r.bodySize } := by
    have hb : (c.parsed q r.header).parser.build = .command r.command r.bodySize := hbuild
    simp [buildCommand, hb]
  refine ⟨(c.parsed q r.header).buildCommand, ?_, ?_⟩
  · rw [foldl_feed_idle h.ready h.command, hparse]
    simp [hcomplete]
  · rw [hd]
    exact ⟨h.alive, rfl, rfl, h.argument, rfl, rfl⟩

/-- An expiration time that overflows ends the connection. -/
theorem Conn.foldl_feed_overflow (h : c.Idle) (hr : r.WellFormed) (he : ¬ r.Expires) :
    (r.encode.foldl (Conn.feed S) c).fault ≠ none := by
  have hthrows := ((Parser.throws_header h.fresh hr he).append r.data).parse
  rw [Request.encode, foldl_feed_idle h.ready h.command]
  cases hp : (c.parser.parse (r.header ++ r.data)).error with
  | none => exact absurd hp hthrows
  | some e => simp [hp]

theorem withDelimiter_bodySize (h : r.HasBody) : withDelimiter r.bodySize = r.data.length := by
  cases r with
  | store verb key flags exptime body =>
    have hpos := List.length_pos_iff.mpr h
    simp [Request.bodySize, Request.data, withDelimiter, hpos, crlf, text]
  | get keys => rfl
  | stats => rfl

/-- A request with a body, or without one by its nature, is answered as a whole. -/
theorem Conn.foldl_feed_request (h : c.Idle) (hr : r.WellFormed) (he : r.Expires)
    (hb : r.HasBody) :
    (r.encode.foldl (Conn.feed S) c).Idle ∧
    (r.encode.foldl (Conn.feed S) c).executed =
      c.executed ++ [⟨r.command, r.data, (r.command.execute S r.data c.storage).1⟩] ∧
    (r.encode.foldl (Conn.feed S) c).storage = (r.command.execute S r.data c.storage).2 := by
  obtain ⟨d, hd, ha, hc, hrem, harg, hst, hex⟩ := foldl_feed_header (S := S) h hr he r.data
  rw [withDelimiter_bodySize hb] at hrem
  have hfill : (d.filled r.data).argumentForCommand = r.data := by simp [filled, harg]
  rw [Request.encode, hd, foldl_feed_exact ha hc hrem]
  refine ⟨⟨ha, rfl, Parser.fresh_reset _, rfl⟩, ?_, ?_⟩
  · simp only [execute, hfill]
    simp [filled, hex, hst]
  · simp only [execute, hfill]
    simp [filled, hst]

/-- The delimiter of an empty body is taken for the next request. -/
theorem Conn.foldl_feed_empty (h : c.Idle) (hr : r.WellFormed) (he : r.Expires)
    (hb : ¬ r.HasBody) :
    (r.encode.foldl (Conn.feed S) c).fault = some (.unknownCommandName []) ∧
    (r.encode.foldl (Conn.feed S) c).executed =
      c.executed ++ [⟨r.command, [], (r.command.execute S [] c.storage).1⟩] := by
  obtain ⟨hsize, hdata⟩ : r.bodySize = 0 ∧ r.data = crlf := by
    cases r with
    | store verb key flags exptime body =>
      have hnil : body = [] := not_not.mp hb
      simp [Request.bodySize, Request.data, hnil]
    | get keys => exact absurd trivial hb
    | stats => exact absurd trivial hb
  obtain ⟨d, hd, ha, hc, hrem, harg, hst, hex⟩ := foldl_feed_header (S := S) h hr he r.data
  have hzero : d.argRemains = ([] : Bytes).length := by rw [hrem, hsize]; rfl
  have hrun := foldl_feed_exact (S := S) ha hc hzero
  rw [List.foldl_nil, filled_nil] at hrun
  have hidle : (d.runCommand S).Idle := by
    rw [hrun]
    exact ⟨ha, rfl, Parser.fresh_reset _, rfl⟩
  have hstep : (d.runCommand S).parser.step 0 (byte '\r') = .error (.unknownCommandName []) := by
    simp only [Parser.step, hidle.fresh.state, Parser.stepName, hidle.fresh.name]
    rw [if_pos (by decide), if_neg (by decide), if_neg (by decide), if_neg (by decide)]
  have hfault := feed_error (S := S) hidle.ready hidle.command hstep
  have hsplit : crlf = byte '\r' :: text "\n" := rfl
  rw [Request.encode, hd, hdata, hsplit, List.foldl_cons, hfault, foldl_feed_of_fault rfl]
  refine ⟨rfl, ?_⟩
  change (d.runCommand S).executed = _
  rw [hrun]
  simp [execute, harg, hex, hst]

/-- Requests that are in order, one after another: each is run with its own data. -/
theorem Conn.foldl_feed_sequence (h : c.Idle) {requests : List Request}
    (hr : ∀ r ∈ requests, r.WellFormed) (hb : ∀ r ∈ requests, r.HasBody ∧ r.Expires) :
    ((requests.flatMap Request.encode).foldl (Conn.feed S) c).Idle ∧
    ((requests.flatMap Request.encode).foldl (Conn.feed S) c).executed.map
        (fun e => (e.command, e.argument)) =
      c.executed.map (fun e => (e.command, e.argument)) ++ requests.map fun r => (r.command, r.data) := by
  induction requests generalizing c with
  | nil => exact ⟨h, by simp⟩
  | cons r requests ih =>
    obtain ⟨hbody, hexpires⟩ := hb r (by simp)
    obtain ⟨hidle, hex, -⟩ := foldl_feed_request (S := S) h (hr r (by simp)) hexpires hbody
    obtain ⟨hidle', hex'⟩ := ih hidle (fun r hm => hr r (by simp [hm]))
      fun r hm => hb r (by simp [hm])
    rw [List.flatMap_cons, List.foldl_append]
    refine ⟨hidle', ?_⟩
    rw [hex', hex]
    simp

theorem Conn.foldl_feed_requests (h : c.Idle) {requests : List Request}
    (hr : ∀ r ∈ requests, r.WellFormed) (hb : ∀ r ∈ requests, r.HasBody ∧ r.Expires) :
    ((requests.flatMap Request.encode).foldl (Conn.feed S) c).Idle ∧
    ((requests.flatMap Request.encode).foldl (Conn.feed S) c).executed.map
        (fun e => (e.command.kind, e.command.keys)) =
      c.executed.map (fun e => (e.command.kind, e.command.keys)) ++
        requests.map fun r => (r.kind, r.keys) := by
  obtain ⟨hidle, hex⟩ := foldl_feed_sequence (S := S) h hr hb
  have hmap := congrArg (List.map fun x : Command × Bytes => (x.1.kind, x.1.keys)) hex
  simp only [List.map_append, List.map_map, Function.comp_def] at hmap
  exact ⟨hidle, by simpa [Request.command_kind, Request.command_keys] using hmap⟩

/-- The connection has done exactly these requests and stands behind the last of them. -/
structure Conn.Framed (c : Conn σ) (requests : List Request) : Prop where
  alive : c.fault = none
  executed : c.executed.map (fun e => (e.command.kind, e.command.keys)) =
    requests.map fun r => (r.kind, r.keys)
  initial : c.parser.Fresh ∧ c.commandToExecute = none ∧ c.argumentForCommand = []
  nothingUnread : c.consumed.map Prod.snd = requests.flatMap Request.encode

theorem Received.framed {storage : σ} {argRemains : Nat} {negative : Bool} {requests : List Request}
    (hc : Received S storage argRemains negative (requests.flatMap Request.encode) c)
    (hr : ∀ r ∈ requests, r.WellFormed) (hb : ∀ r ∈ requests, r.HasBody ∧ r.Expires) :
    c.Framed requests := by
  have hfeed := hc.feed
  obtain ⟨hidle, hex⟩ := Conn.foldl_feed_requests (S := S)
    (Conn.create_idle storage argRemains negative) hr hb
  rw [← hfeed] at hidle hex
  have ha : c.fault = none := by
    have h := hidle.alive
    simpa [Conn.unplaced] using h
  rw [Conn.unplaced_of_alive ha] at hidle hex
  obtain ⟨-, hall⟩ := (Conn.accounted_of_alive ha).mp hc.accounted
  exact ⟨ha, by simpa [Conn.create] using hex, ⟨hidle.fresh, hidle.command, hidle.argument⟩,
    hall.symm⟩

/-- Where no part of a sequence of requests makes the connection throw, every body is there and no
expiration time overflows. -/
theorem Conn.inOrder_of_alive (h : c.Idle) {requests : List Request}
    (hr : ∀ r ∈ requests, r.WellFormed)
    (ha : ∀ pre, pre <+: requests →
      ((pre.flatMap Request.encode).foldl (Conn.feed S) c).fault = none) :
    ∀ r ∈ requests, r.HasBody ∧ r.Expires := by
  induction requests generalizing c with
  | nil => simp
  | cons r requests ih =>
    have hone : (r.encode.foldl (Conn.feed S) c).fault = none := by
      simpa using ha [r] (by simp)
    have he : r.Expires := by
      by_contra he
      exact foldl_feed_overflow h (hr r (by simp)) he hone
    have hb : r.HasBody := by
      by_contra hb
      have hfault := (foldl_feed_empty (S := S) h (hr r (by simp)) he hb).1
      simp [hfault] at hone
    obtain ⟨hidle, -, -⟩ := foldl_feed_request (S := S) h (hr r (by simp)) he hb
    have hrest := ih hidle (fun r hm => hr r (by simp [hm])) fun pre hpre => by
      have hlong := ha (r :: pre) (by simpa using hpre)
      rwa [List.flatMap_cons, List.foldl_append] at hlong
    intro r' hm
    rcases List.mem_cons.mp hm with rfl | hm
    · exact ⟨hb, he⟩
    · exact hrest r' hm

/-- Requests stay aligned with the commands they are run as, for every part of the sequence and
however it arrives, exactly if every storing request has a body that is not empty and an
expiration time whose digits add up to an `int32_t`. -/
theorem framing_iff (S : Storage σ) (storage : σ) (argRemains : Nat) (negative : Bool)
    (requests : List Request) (hr : ∀ r ∈ requests, r.WellFormed) :
    (∀ pre, pre <+: requests → ∀ c,
      Received S storage argRemains negative (pre.flatMap Request.encode) c → c.Framed pre) ↔
    ∀ r ∈ requests, r.HasBody ∧ r.Expires := by
  constructor
  · intro h
    apply Conn.inOrder_of_alive (S := S) (Conn.create_idle storage argRemains negative) hr
    intro pre hpre
    -- the bytes of the requests one by one are a cut as good as any
    have hcut : Cut (pre.flatMap Request.encode) ((pre.flatMap Request.encode).map fun b => [b]) := by
      refine ⟨by simp [← List.flatMap_def], fun chunk hm => ?_⟩
      obtain ⟨b, -, rfl⟩ := List.mem_map.mp hm
      simp
    have hc : Received S storage argRemains negative (pre.flatMap Request.encode) _ :=
      .stBlocking sendAll_succeeds hcut
    rw [← hc.feed]
    simpa [Conn.unplaced] using (h pre hpre _ hc).alive
  · intro hb pre hpre c hc
    exact hc.framed (fun r hm => hr r (hpre.subset hm)) fun r hm => hb r (hpre.subset hm)

/-- A storing request with binary data, a retrieval and an empty body behind them. -/
theorem framing_iff_empty_body :
    let requests : List Request :=
      [.store .set [107] 0 (-5) [13, 10, 0], .get [[107], [108]], .store .append [107] 1 0 []]
    (∀ pre, pre <+: requests → ∀ c,
      Received simpleLRU (some (Storage.SimpleLRU.create 64)) 0 false (pre.flatMap Request.encode) c →
        c.Framed pre) ↔
    ∀ r ∈ requests, r.HasBody ∧ r.Expires :=
  framing_iff simpleLRU (some (Storage.SimpleLRU.create 64)) 0 false _ (by decide)

/-- `set k 0 0 0`, its delimiter and `stats`: the connection dies on the delimiter. -/
theorem framing_lost :
    let stream := [Request.store .set [107] 0 0 [], .stats].flatMap Request.encode
    let c := ((Conn.create (some (Storage.SimpleLRU.create 64)) 0 false).readLoop simpleLRU
      (stBlocking sendAll) ⟨[], 0⟩ [stream]).1
    stream = text "set k 0 0 0\r\n\r\nstats\r\n" ∧
      c.fault = some (.unknownCommandName []) ∧ c.executed.length = 1 := by
  decide

end Sysprog.Network
