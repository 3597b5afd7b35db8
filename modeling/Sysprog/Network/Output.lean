import Sysprog.Lib.Run
import Sysprog.Network.Chunking

namespace Sysprog.Network

open Execute Protocol

variable {σ ω : Type}

/-- The front end writes every result down in its `frame`, behind what `out` held before. -/
structure FrontEnd.Collects (f : FrontEnd ω) (out : ω → Bytes) (frame : Bytes → Bytes) : Prop where
  load : ∀ o, out (f.runningLoad o).2 = out o
  respond : ∀ result o o', f.respond result o = .ok o' → out o' = out o ++ frame result

/-- A result the way the protocol wants it. -/
def terminated (result : Bytes) : Bytes := result ++ crlf

theorem stBlocking_collects (send : Bytes → Bytes → Int) :
    (stBlocking send).Collects Socket.sent terminated := by
  refine ⟨fun _ => rfl, fun result o o' h => ?_⟩
  simp only [stBlocking] at h
  split_ifs at h
  cases h
  rfl

theorem mtBlocking_collects (running : Nat → Bool) (send : Bytes → Bytes → Int) :
    (mtBlocking running send).Collects Socket.sent id := by
  refine ⟨fun _ => rfl, fun result o o' h => ?_⟩
  simp only [mtBlocking] at h
  split_ifs at h
  cases h
  rfl

theorem nonBlocking_collects (epollerr : Bool) :
    (nonBlocking epollerr).Collects Pending.results terminated := by
  refine ⟨fun _ => rfl, fun result o o' h => ?_⟩
  cases h
  rfl

/-- The results of some commands, one after another. -/
def framed (frame : Bytes → Bytes) (es : List Executed) : Bytes := es.flatMap fun e => frame e.result

@[simp] theorem framed_nil (frame : Bytes → Bytes) : framed frame [] = [] := rfl

@[simp] theorem framed_append (frame : Bytes → Bytes) (es fs : List Executed) :
    framed frame (es ++ fs) = framed frame es ++ framed frame fs := by
  simp [framed]

/-- Between two states: the commands that have run, and exactly their results written down. -/
def Wrote (out : ω → Bytes) (frame : Bytes → Bytes) (x y : Conn σ × ω) : Prop :=
  ∃ es, y.1.executed = x.1.executed ++ es ∧ out y.2 = out x.2 ++ framed frame es

variable {S : Storage σ} {f : FrontEnd ω} {c : Conn σ} {out : ω → Bytes} {frame : Bytes → Bytes}

theorem Wrote.refl (x : Conn σ × ω) : Wrote out frame x x := ⟨[], by simp, by simp⟩

theorem Wrote.trans {x y z : Conn σ × ω} (h : Wrote out frame x y) (h' : Wrote out frame y z) :
    Wrote out frame x z := by
  obtain ⟨es, he, ho⟩ := h
  obtain ⟨fs, hf, hp⟩ := h'
  exact ⟨es ++ fs, by simp [hf, he], by simp [hp, ho]⟩

theorem Conn.buildCommand_executed : c.buildCommand.executed = c.executed := by
  simp only [buildCommand]
  split <;> rfl

theorem Conn.parsePhase_executed (buffer : Bytes) :
    (c.parsePhase buffer).1.executed = c.executed := by
  simp only [parsePhase]
  split
  · rfl
  · simp only [afterParse]
    split
    · rfl
    · split_ifs <;> simp [buildCommand_executed, parsed]

theorem Conn.fillPhase_executed (buffer : Bytes) :
    (c.fillPhase buffer).1.executed = c.executed := by
  simp only [fillPhase]
  split_ifs <;> rfl

theorem Conn.runPhase_wrote (hf : f.Succeeds) (hw : f.Collects out frame) (c : Conn σ) (o : ω) :
    Wrote out frame (c, o) (c.runPhase S f o) := by
  cases hc : c.commandToExecute with
  | none => simpa [runPhase, hc] using Wrote.refl (c, o)
  | some cmd =>
    by_cases hr : c.argRemains = 0
    · have hne : (c.execute S cmd).1 ≠ [] := Command.execute_ne_nil S _ _ cmd
      obtain ⟨o', ho⟩ := hf.responds _ o hne
      refine ⟨[⟨cmd, c.argumentForCommand, (c.execute S cmd).1⟩], ?_, ?_⟩
      · simp only [runPhase, hc, hr, if_true, ho]
        rfl
      · simp only [runPhase, hc, hr, if_true, ho]
        simpa [framed] using hw.respond _ o o' ho
    · simpa [runPhase, hc, hr] using Wrote.refl (c, o)

theorem Conn.pass_wrote (hf : f.Succeeds) (hw : f.Collects out frame) (c : Conn σ) (o : ω)
    (buffer : Bytes) : Wrote out frame (c, o) (c.pass S f o buffer).1 := by
  have hp := c.parsePhase_executed buffer
  simp only [pass]
  split
  next d hd =>
    rw [hd] at hp
    exact ⟨[], by simpa using hp, by simp⟩
  next d rest hd =>
    rw [hd] at hp
    have hfill := d.fillPhase_executed rest
    obtain ⟨es, he, ho⟩ := runPhase_wrote (S := S) hf hw (d.fillPhase rest).1 o
    exact ⟨es, by rw [he, hfill, hp], ho⟩

theorem Conn.processLoop_wrote (hf : f.Succeeds) (hw : f.Collects out frame) (fuel : Nat)
    (c : Conn σ) (o : ω) (buffer : Bytes) :
    Wrote out frame (c, o) (c.processLoop S f fuel o buffer) := by
  induction fuel generalizing c o buffer with
  | zero => exact Wrote.refl _
  | succ fuel ih =>
    have hload : Wrote out frame (c, o) (c, (f.runningLoad o).2) := ⟨[], by simp, by simp [hw.load]⟩
    simp only [processLoop]
    split_ifs
    · have hpass := pass_wrote (S := S) hf hw c (f.runningLoad o).2 buffer
      split
      next hd =>
        rw [hd] at hpass
        exact hload.trans hpass
      next hd =>
        rw [hd] at hpass
        exact (hload.trans hpass).trans (ih _ _ _)
    · exact hload

/-- A loop that does not fail to respond writes down exactly what its commands have answered. -/
theorem Conn.readLoop_wrote (hf : f.Succeeds) (hw : f.Collects out frame) (c : Conn σ) (o : ω)
    (chunks : List Bytes) : Wrote out frame (c, o) (c.readLoop S f o chunks) := by
  induction chunks generalizing c o with
  | nil => exact Wrote.refl _
  | cons chunk chunks ih =>
    have hload : Wrote out frame (c, o) (c, (f.runningLoad o).2) := ⟨[], by simp, by simp [hw.load]⟩
    simp only [readLoop]
    split_ifs
    · exact hload.trans (processLoop_wrote hf hw _ _ _ _)
    · exact (hload.trans (processLoop_wrote hf hw _ _ _ _)).trans (ih _ _)
    · exact hload

namespace Connection

/-- A call on a non-blocking connection, with what the kernel answers. -/
inductive Op where
  | doRead (chunks : List Bytes) (last : ReadEnd)
  | doWrite (sendResult : Int)

variable (S : Storage σ) (epollerr : Bool)

def step : Op → Connection σ → Option (Unit × Connection σ)
  | .doRead chunks last, c => some ((), c.doRead S epollerr chunks last)
  | .doWrite sendResult, c => some ((), c.doWrite epollerr sendResult)

/-- What `send` may return: -1, 0 for an empty buffer, or a count up to its size, as a `ssize_t`. -/
def Admissible : Op → Connection σ → Prop
  | .doRead _ _, _ => True
  | .doWrite n, c =>
    n = -1 ∨ (c.pending.results = [] ∧ n = 0) ∨
      (1 ≤ n ∧ n ≤ c.pending.results.length ∧ n < 2 ^ 63)

/-- No send of pending bytes fails. -/
def Delivers : Op → Connection σ → Prop
  | .doRead _ _, _ => True
  | .doWrite n, c => c.pending.results = [] ∨ n ≠ -1

instance : ∀ (op : Op) (c : Connection σ), Decidable (Admissible op c)
  | .doRead _ _, _ => inferInstanceAs (Decidable True)
  | .doWrite _, _ => inferInstanceAs (Decidable (_ ∨ _))

instance : ∀ (op : Op) (c : Connection σ), Decidable (Delivers op c)
  | .doRead _ _, _ => inferInstanceAs (Decidable True)
  | .doWrite _, _ => inferInstanceAs (Decidable (_ ∨ _))

/-- Nothing is lost, duplicated or reordered between the commands and the socket. -/
def Conserves (c : Connection σ) : Prop :=
  c.alive = true → c.accepted ++ c.pending.results = framed terminated c.conn.executed

variable {S epollerr} {c : Connection σ}

theorem doRead_conserves (h : c.Conserves) (chunks : List Bytes) (last : ReadEnd) :
    (c.doRead S epollerr chunks last).Conserves := by
  intro halive
  have hc : c.alive = true := by
    simp only [doRead, Bool.and_eq_true] at halive
    exact halive.1
  obtain ⟨es, he, ho⟩ := Conn.readLoop_wrote (S := S) (nonBlocking_succeeds epollerr)
    (nonBlocking_collects epollerr) { c.conn with fault := none } c.pending chunks
  have hafter : ∀ d : Conn σ, (afterReads d last).executed = d.executed := by
    intro d
    simp only [afterReads]
    split <;> try split_ifs
    all_goals rfl
  simp only [doRead, hafter, he, ho, framed_append, ← h hc, List.append_assoc]

theorem doWrite_conserves (h : c.Conserves) {n : Int} (ha : Admissible (.doWrite n) c)
    (hd : Delivers (.doWrite n) c) : (c.doWrite epollerr n).Conserves := by
  intro halive
  rcases ha with rfl | ⟨hnil, rfl⟩ | ⟨h1, hle, hlt⟩
  · -- a failed send clears the buffer: harmless only when there is nothing in it
    have hnil : c.pending.results = [] := hd.resolve_right (by simp)
    have hkeep := h (by simpa [doWrite, unsignedLong, hnil] using halive)
    simpa [doWrite, unsignedLong, hnil] using hkeep
  · simp [doWrite, unsignedLong] at halive
  · have hn : unsignedLong n = n.toNat := by
      rw [unsignedLong, Int.emod_eq_of_lt (by omega) (by omega)]
    have hpos : ¬ n.toNat ≤ 0 := by omega
    have hkeep := h (by
      simp only [doWrite, hn, hpos, if_false] at halive
      split_ifs at halive <;> exact halive)
    simp only [doWrite, hn, hpos, if_false]
    split_ifs with hall
    · have htake : c.pending.results.take n.toNat = c.pending.results := List.take_of_length_le hall
      simpa [htake] using hkeep
    · simpa using hkeep

end Connection

/-- As long as no send of pending bytes fails, the bytes accepted by the socket and those still
pending are the results of all commands so far. -/
theorem response_bytes_conserved (S : Storage σ) (epollerr : Bool) (storage : σ) (argRemains : Nat)
    (negative : Bool) (ops pre post : List Connection.Op) (hpre : ops = pre ++ post)
    (h : AllSteps (Connection.step S epollerr)
      (fun op c => Connection.Admissible op c ∧ Connection.Delivers op c) ops
      (.start epollerr storage argRemains negative)) :
    ∃ us c, run (Connection.step S epollerr) pre (.start epollerr storage argRemains negative) =
      some (us, c) ∧ c.Conserves := by
  rw [hpre] at h
  refine run_total _ _ Connection.Conserves ?_ pre _ (fun _ => rfl) h.of_append
  intro op c hc hop
  cases op with
  | doRead chunks last => exact ⟨(), _, rfl, Connection.doRead_conserves hc chunks last⟩
  | doWrite n => exact ⟨(), _, rfl, Connection.doWrite_conserves hc hop.1 hop.2⟩

/-- Two responses, the first sent in two parts around the second. -/
theorem response_bytes_conserved_in_parts :
    ∃ us c, run (Connection.step simpleLRU true)
      [.doRead [text "stats\r\n"] (.failed true []), .doWrite 2, .doRead [text "stats\r\n"] .closed,
        .doWrite 8]
      (.start true (some (Storage.SimpleLRU.create 8)) 0 false) = some (us, c) ∧ c.Conserves :=
  response_bytes_conserved simpleLRU true (some (Storage.SimpleLRU.create 8)) 0 false _ _ []
    (List.append_nil _).symm (by decide)

/-- `send` returns -1 for `EAGAIN`: the connection stays alive and its pending response is gone. -/
theorem response_bytes_lost :
    ∃ us c, run (Connection.step simpleLRU true)
        [.doRead [text "stats\r\n"] (.failed true []), .doWrite (-1)]
        (.start true (some (Storage.SimpleLRU.create 8)) 0 false) = some (us, c) ∧
      c.alive = true ∧ c.accepted ++ c.pending.results = [] ∧
      framed terminated c.conn.executed = text "END\r\n" ∧ ¬ c.Conserves := by
  refine ⟨_, _, rfl, by decide, by decide, by decide, ?_⟩
  intro h
  exact absurd (h (by decide)) (by decide)

theorem Conn.runCommand_executed : ∃ es, (c.runCommand S).executed = c.executed ++ es := by
  cases hc : c.commandToExecute with
  | none => exact ⟨[], by simp [runCommand, hc]⟩
  | some cmd =>
    by_cases hr : c.argRemains = 0
    · exact ⟨[⟨cmd, c.argumentForCommand, (c.execute S cmd).1⟩], by simp [runCommand, hc, hr, execute]⟩
    · exact ⟨[], by simp [runCommand, hc, hr]⟩

/-- The history only grows. -/
theorem Conn.foldl_feed_executed (c : Conn σ) (bytes : Bytes) :
    ∃ es, (bytes.foldl (Conn.feed S) c).executed = c.executed ++ es := by
  induction bytes generalizing c with
  | nil => exact ⟨[], by simp⟩
  | cons b bytes ih =>
    have hstep : ∃ es, (c.feed S b).executed = c.executed ++ es := by
      simp only [feed]
      split_ifs
      · exact ⟨[], by simp⟩
      · split
        · split
          · exact ⟨[], by simp⟩
          next p hp =>
            split_ifs
            · obtain ⟨es, he⟩ := runCommand_executed (S := S) (c := (c.parsed p [b]).buildCommand)
              exact ⟨es, by rw [he, buildCommand_executed]; rfl⟩
            · exact ⟨[], by simp [parsed]⟩
        · exact runCommand_executed (c := c.filled [b])
    obtain ⟨es, he⟩ := hstep
    obtain ⟨fs, hf⟩ := ih (c.feed S b)
    exact ⟨es ++ fs, by simp [hf, he]⟩

/-- The stream starts with a complete request: a header the parser takes for a command, and the
argument the header asks for. -/
def StartsWithRequest (negative : Bool) (stream : Bytes) : Prop :=
  let r := (Parser.create negative).parse stream
  r.error = none ∧ r.parser.parseComplete = true ∧
    ∃ cmd bodySize, r.parser.build = .command cmd bodySize ∧
      withDelimiter bodySize ≤ (stream.drop r.pos).length

/-- A command waiting for its argument runs exactly when all of it arrives. -/
theorem Conn.executed_of_built (ha : c.fault = none) (hc : c.commandToExecute.isSome)
    (he : c.executed = []) (bytes : Bytes) :
    (bytes.foldl (Conn.feed S) (c.runCommand S)).executed ≠ [] ↔ c.argRemains ≤ bytes.length := by
  rw [foldl_feed_fillPhase ha hc]
  obtain ⟨cmd, hcmd⟩ := Option.isSome_iff_exists.mp hc
  by_cases hle : c.argRemains ≤ bytes.length
  · have hzero : (c.fillPhase bytes).1.argRemains = 0 := by
      simp only [fillPhase]
      split_ifs with hw
      · simp only [filled, List.length_take]
        omega
      · have hn : ¬ c.argRemains > 0 := fun hpos => hw ⟨hc, hpos⟩
        change c.argRemains = 0
        omega
    have hrun : ((c.fillPhase bytes).1.runCommand S).executed ≠ [] := by
      simp [runCommand, fillPhase_command, hcmd, hzero, execute]
    obtain ⟨es, hes⟩ :=
      foldl_feed_executed (S := S) ((c.fillPhase bytes).1.runCommand S) (c.fillPhase bytes).2
    simp [hes, hrun, hle]
  · have hw : c.commandToExecute.isSome ∧ c.argRemains > 0 := ⟨hc, by omega⟩
    have hmin : min c.argRemains bytes.length = bytes.length := by omega
    have hpos : 0 < (c.filled bytes).argRemains := by
      simp only [filled]
      omega
    simp only [fillPhase, hw, and_self, if_true, hmin, List.take_length, List.drop_length,
      List.foldl_nil, runCommand_of_waiting hpos]
    simp [filled, he, hle]

/-- A command runs exactly when the stream starts with one. -/
theorem Conn.executed_iff (storage : σ) (argRemains : Nat) (negative : Bool) (stream : Bytes) :
    (stream.foldl (Conn.feed S) (Conn.create storage argRemains negative)).executed ≠ [] ↔
      StartsWithRequest negative stream := by
  have hready := Conn.create_ready storage argRemains negative
  have hfeed := foldl_feed_idle (S := S) hready rfl stream
  have hsound := Parser.parse_sound (Parser.sound_create negative) stream
  simp only [StartsWithRequest]
  rw [hfeed]
  simp only [show (Conn.create storage argRemains negative).parser = Parser.create negative from rfl]
  generalize (Parser.create negative).parse stream = r at hsound ⊢
  obtain ⟨p, pos, error⟩ := r
  cases error with
  | some e => simp [parsed, Conn.create]
  | none =>
    cases hcomplete : p.parseComplete with
    | false => simp [parsed, Conn.create]
    | true =>
      rcases buildCommand_cases (c := (Conn.create storage argRemains negative).parsed p
        (stream.take pos)) hsound hcomplete with ⟨cmd, hbuild, hd⟩ | ⟨hbuild, hd⟩
      · simp only [if_true, hd, true_and]
        rw [executed_of_built rfl rfl rfl]
        have hp : p.build = .command cmd p.bytes := hbuild
        simp [hp, parsed]
      · simp only [if_true, hd, true_and]
        rw [runCommand_of_idle rfl, foldl_feed_of_fault rfl]
        have hp : p.build = .thrown .unsupportedCommand := hbuild
        simp [hp, parsed, Conn.create]

namespace Connection

variable {epollerr : Bool} {c : Connection σ}

/-- No command, no output. -/
def Silent (c : Connection σ) : Prop :=
  c.conn.executed = [] → c.accepted = [] ∧ c.pending.results = []

theorem doRead_silent (epollerr : Bool) (h : c.Silent) (chunks : List Bytes) {last : ReadEnd}
    (hf : c.conn.fault = none) (hl : last.Graceful) : (c.doRead S epollerr chunks last).Silent := by
  obtain ⟨es, he, ho⟩ := Conn.readLoop_wrote (S := S) (nonBlocking_succeeds epollerr)
    (nonBlocking_collects epollerr) c.conn c.pending chunks
  rw [doRead_graceful epollerr hf chunks hl]
  intro hnil
  obtain ⟨h1, h2⟩ : c.conn.executed = [] ∧ es = [] := by simpa [he] using hnil
  obtain ⟨ha, hr⟩ := h h1
  exact ⟨ha, by simp [ho, hr, h2]⟩

theorem doWrite_conn (n : Int) : (c.doWrite epollerr n).conn = c.conn := by
  simp only [doWrite]
  split_ifs <;> rfl

theorem doWrite_silent (h : c.Silent) (n : Int) : (c.doWrite epollerr n).Silent := by
  intro hnil
  rw [doWrite_conn] at hnil
  obtain ⟨ha, hr⟩ := h hnil
  simp only [doWrite, ha, hr]
  split_ifs <;> simp [hr]

/-- Reading and writing by turns goes through a part of the stream at least. -/
theorem exchange_feed (epollerr : Bool) (h : c.conn.Ready) (hs : c.Silent) (calls : List (List Bytes × ReadEnd))
    (hl : ∀ call ∈ calls, call.2.Graceful) :
    (c.exchange S epollerr calls).Silent ∧
      ∃ bytes, bytes <+: (calls.flatMap Prod.fst).flatten ∧
        (c.exchange S epollerr calls).conn.unplaced = bytes.foldl (Conn.feed S) c.conn := by
  induction calls generalizing c with
  | nil => exact ⟨hs, [], by simp, by simp [exchange, Conn.unplaced_of_alive h.alive]⟩
  | cons call calls ih =>
    obtain ⟨chunks, last⟩ := call
    have hsilent := doRead_silent (S := S) epollerr hs chunks h.alive
      (hl (chunks, last) (by simp))
    have hread := Conn.readLoop_feed (S := S) (nonBlocking_succeeds epollerr) h c.pending chunks
    have hdo := doRead_graceful (S := S) epollerr h.alive chunks (hl (chunks, last) (by simp))
    have hconn : (c.doRead S epollerr chunks last).conn =
        (c.conn.readLoop S (nonBlocking epollerr) c.pending chunks).1 := by rw [hdo]
    have halive : (c.doRead S epollerr chunks last).alive = (c.alive &&
        (c.conn.readLoop S (nonBlocking epollerr) c.pending chunks).1.fault.isNone) := by rw [hdo]
    rw [← hconn] at hread halive
    simp only [exchange, List.flatMap_cons, List.flatten_append]
    generalize c.doRead S epollerr chunks last = d at hsilent hread halive ⊢
    split_ifs with ha hd
    · have hf : d.conn.fault = none := by simpa [ha, hd] using halive
      rw [Conn.unplaced_of_alive hf] at hread
      have hr : d.conn.Ready := by
        rw [hread] at hf ⊢
        exact Conn.foldl_feed_ready h _ hf
      obtain ⟨hsil, bytes, hpre, heq⟩ := ih (c := d.doWrite epollerr d.pending.results.length)
        (by rwa [doWrite_conn]) (doWrite_silent hsilent _) fun call hc => hl call (by simp [hc])
      refine ⟨hsil, chunks.flatten ++ bytes, (List.prefix_append_right_inj _).mpr hpre, ?_⟩
      rw [heq, doWrite_conn, hread, List.foldl_append]
    · have hdead : d.exchange S epollerr calls = d := by cases calls <;> simp [exchange, hd]
      rw [hdead]
      exact ⟨hsilent, chunks.flatten, List.prefix_append _ _, hread⟩
    · exact ⟨hs, [], by simp, by simp [Conn.unplaced_of_alive h.alive]⟩

end Connection

theorem framed_terminated_length (es : List Executed) :
    (framed terminated es).length = (framed id es).length + 2 * es.length := by
  induction es with
  | nil => rfl
  | cons e es ih =>
    simp only [framed, List.flatMap_cons, List.length_append, List.length_cons, id_eq] at ih ⊢
    have hc : (terminated e.result).length = e.result.length + 2 := by simp [terminated, crlf, text]
    omega

/-- `send` takes all it is given. -/
def sendAll (_sent data : Bytes) : Int := data.length

theorem sendAll_succeeds : SendsSucceed sendAll :=
  fun _ _ hne => Int.natCast_pos.mpr (List.length_pos_iff.mpr hne)

/-- STblocking sends what its commands have answered, each with its CRLF. -/
theorem stBlocking_sent {storage : σ} {argRemains : Nat} {negative : Bool} {stream : Bytes}
    {cut : List Bytes} (hcut : Cut stream cut) :
    ((Conn.create storage argRemains negative).readLoop S (stBlocking sendAll) ⟨[], 0⟩ cut).2.sent =
      framed terminated
        (stream.foldl (Conn.feed S) (Conn.create storage argRemains negative)).executed := by
  obtain ⟨es, he, ho⟩ := Conn.readLoop_wrote (S := S) (stBlocking_succeeds sendAll_succeeds)
    (stBlocking_collects sendAll) (Conn.create storage argRemains negative) ⟨[], 0⟩ cut
  rw [← (Received.stBlocking sendAll_succeeds hcut).executed, he]
  exact ho

/-- What the four servers send for one stream is the same, and as the protocol wants it, only as
long as no command has run: MTblocking leaves out the CRLF of every response. -/
theorem front_ends_agree_iff (S : Storage σ) (storage : σ) (argRemains : Nat) (negative : Bool)
    (stream : Bytes) (cut cut' : List Bytes) (calls calls' : List (List Bytes × ReadEnd))
    (hcut : Cut stream cut) (hcut' : Cut stream cut') (hcalls : Cut stream (calls.flatMap Prod.fst))
    (hcalls' : Cut stream (calls'.flatMap Prod.fst)) (hl : ∀ call ∈ calls, call.2.Graceful)
    (hl' : ∀ call ∈ calls', call.2.Graceful) :
    let st := (Conn.create storage argRemains negative).readLoop S (stBlocking sendAll) ⟨[], 0⟩ cut
    let mt := (Conn.create storage argRemains negative).readLoop S
      (mtBlocking (fun _ => true) sendAll) ⟨[], 0⟩ cut'
    let stn := (Connection.start false storage argRemains negative).exchange S false calls
    let mtn := (Connection.start true storage argRemains negative).exchange S true calls'
    (st.2.sent = framed terminated st.1.executed ∧ mt.2.sent = st.2.sent ∧
      stn.accepted = st.2.sent ∧ mtn.accepted = st.2.sent) ↔ ¬ StartsWithRequest negative stream := by
  intro st mt stn mtn
  have hready := Conn.create_ready storage argRemains negative
  have hst : st.1.executed =
      (stream.foldl (Conn.feed S) (Conn.create storage argRemains negative)).executed :=
    (Received.stBlocking sendAll_succeeds hcut).executed
  have hmt : mt.1.executed = st.1.executed :=
    (Received.mtBlocking (fun _ => rfl) sendAll_succeeds hcut').executed.trans hst.symm
  have hstout : st.2.sent = framed terminated st.1.executed := by
    rw [hst]
    exact stBlocking_sent hcut
  have hmtout : mt.2.sent = framed id mt.1.executed := by
    have hsucceeds : (mtBlocking (fun _ => true) sendAll).Succeeds :=
      mtBlocking_succeeds (fun _ => rfl) sendAll_succeeds
    obtain ⟨es, he, ho⟩ := Conn.readLoop_wrote (S := S) hsucceeds
      (mtBlocking_collects _ sendAll) (Conn.create storage argRemains negative) ⟨[], 0⟩ cut'
    exact ho.trans (congrArg (framed id) he.symm)
  rw [← Conn.executed_iff (S := S) storage argRemains negative stream, ← hst, not_not]
  constructor
  · intro hall
    obtain ⟨-, hagree, -, -⟩ := hall
    have hlen := framed_terminated_length st.1.executed
    rw [hmtout, hmt, hstout] at hagree
    rw [hagree] at hlen
    exact List.length_eq_zero_iff.mp (by omega)
  · intro hnil
    -- what a part of the stream makes the non-blocking servers run is nothing either
    have hquiet : ∀ epollerr calls, (∀ call ∈ calls, ReadEnd.Graceful call.2) →
        Cut stream (calls.flatMap Prod.fst) →
        ((Connection.start epollerr storage argRemains negative).exchange S epollerr calls).accepted
          = [] := by
      intro epollerr calls hl hcalls
      obtain ⟨hsilent, bytes, ⟨rest, hrest⟩, heq⟩ := Connection.exchange_feed (S := S)
        epollerr (c := .start epollerr storage argRemains negative) hready
        (fun _ => ⟨rfl, rfl⟩) calls hl
      obtain ⟨es, he⟩ := Conn.foldl_feed_executed (S := S)
        (bytes.foldl (Conn.feed S) (Conn.create storage argRemains negative)) rest
      rw [← List.foldl_append, hrest, hcalls.1, ← hst, hnil] at he
      have hexec : _ = (bytes.foldl (Conn.feed S) (Conn.create storage argRemains negative)).executed :=
        congrArg Conn.executed heq
      exact (hsilent (hexec.trans (List.append_eq_nil_iff.mp he.symm).1)).1
    refine ⟨hstout, ?_, ?_, ?_⟩
    · rw [hmtout, hmt, hstout, hnil]
      rfl
    · rw [hstout, hnil]
      exact hquiet false calls hl hcalls
    · rw [hstout, hnil]
      exact hquiet true calls' hl' hcalls'

/-- Half a request, in different pieces: nobody answers. -/
theorem front_ends_agree_iff_half :
    let st := (Conn.create (some (Storage.SimpleLRU.create 8)) 5 true).readLoop simpleLRU
      (stBlocking sendAll) ⟨[], 0⟩ [text "set a 0", text " 0 4\r\nb"]
    let mt := (Conn.create (some (Storage.SimpleLRU.create 8)) 5 true).readLoop simpleLRU
      (mtBlocking (fun _ => true) sendAll) ⟨[], 0⟩ [text "set a 0 0 4\r\nb"]
    let stn := (Connection.start false (some (Storage.SimpleLRU.create 8)) 5 true).exchange simpleLRU
      false [([text "set a 0 0 4\r", text "\nb"], .closed)]
    let mtn := (Connection.start true (some (Storage.SimpleLRU.create 8)) 5 true).exchange simpleLRU
      true [([text "set a 0 0 4\r"], .failed true []), ([text "\nb"], .closed)]
    (st.2.sent = framed terminated st.1.executed ∧ mt.2.sent = st.2.sent ∧
      stn.accepted = st.2.sent ∧ mtn.accepted = st.2.sent) ↔
        ¬ StartsWithRequest true (text "set a 0 0 4\r\nb") :=
  front_ends_agree_iff simpleLRU (some (Storage.SimpleLRU.create 8)) 5 true _ _ _ _ _
    ⟨rfl, by decide⟩ ⟨rfl, by decide⟩ ⟨rfl, by decide⟩ ⟨rfl, by decide⟩
    (by simp [ReadEnd.Graceful]) (by simp [ReadEnd.Graceful])

/-- A command and then a malformed one: only STblocking answers as it should. -/
theorem front_ends_disagree :
    ((Conn.create (some (Storage.SimpleLRU.create 8)) 5 true).readLoop simpleLRU
      (stBlocking sendAll) ⟨[], 0⟩ [text "stats\r\nx "]).2.sent = text "END\r\n" ∧
    ((Conn.create (some (Storage.SimpleLRU.create 8)) 5 true).readLoop simpleLRU
      (mtBlocking (fun _ => true) sendAll) ⟨[], 0⟩ [text "stats\r\nx "]).2.sent = text "END" ∧
    ((Connection.start true (some (Storage.SimpleLRU.create 8)) 5 true).exchange simpleLRU
      true [([text "stats\r\nx "], .closed)]).accepted = [] := by
  decide

end Sysprog.Network
