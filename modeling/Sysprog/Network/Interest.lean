import Sysprog.Network.Output

namespace Sysprog.Network

open Execute Protocol

variable {σ ω υ : Type}

section Loops

variable {S : Storage σ} {f : FrontEnd ω} {g : FrontEnd υ}

/-- What every response keeps true of the output, the loops keep true. -/
structure FrontEnd.Preserves (f : FrontEnd ω) (P : ω → Prop) : Prop where
  load : ∀ o, P o → P (f.runningLoad o).2
  respond : ∀ result o o', P o → f.respond result o = .ok o' → P o'

theorem Conn.runPhase_preserves {P : ω → Prop} (hf : f.Preserves P) (c : Conn σ) {o : ω} (h : P o) :
    P (c.runPhase S f o).2 := by
  simp only [runPhase]
  cases c.commandToExecute with
  | none => exact h
  | some cmd =>
    dsimp only
    split_ifs
    · cases hr : f.respond (c.execute S cmd).1 o with
      | error e => exact h
      | ok o' => exact hf.respond _ _ _ h hr
    · exact h

theorem Conn.pass_preserves {P : ω → Prop} (hf : f.Preserves P) (c : Conn σ) {o : ω} (h : P o)
    (buffer : Bytes) : P (c.pass S f o buffer).1.2 := by
  simp only [pass]
  split
  · exact h
  · exact runPhase_preserves hf _ h

theorem Conn.processLoop_preserves {P : ω → Prop} (hf : f.Preserves P) (fuel : Nat) (c : Conn σ)
    {o : ω} (h : P o) (buffer : Bytes) : P (c.processLoop S f fuel o buffer).2 := by
  induction fuel generalizing c o buffer with
  | zero => exact h
  | succ fuel ih =>
    have hload := hf.load o h
    simp only [processLoop]
    split_ifs with hr
    · have hpass := pass_preserves (S := S) hf c hload buffer
      split
      · next heq => rwa [heq] at hpass
      · next heq =>
        rw [heq] at hpass
        exact ih _ hpass _
    · exact hload

theorem Conn.readLoop_preserves {P : ω → Prop} (hf : f.Preserves P) (c : Conn σ) {o : ω} (h : P o)
    (chunks : List Bytes) : P (c.readLoop S f o chunks).2 := by
  induction chunks generalizing c o with
  | nil => exact h
  | cons chunk chunks ih =>
    have hload := hf.load o h
    have hprocess : P (c.process S f (f.runningLoad o).2 chunk).2 :=
      processLoop_preserves hf _ c hload chunk
    simp only [readLoop]
    split_ifs
    · exact hprocess
    · exact ih _ hprocess
    · exact hload

/-- Two front ends that differ in what they keep of their output. -/
structure FrontEnd.Forgets (f : FrontEnd ω) (g : FrontEnd υ) (forget : ω → υ) : Prop where
  load : ∀ o, g.runningLoad (forget o) = ((f.runningLoad o).1, forget (f.runningLoad o).2)
  respond : ∀ result o, g.respond result (forget o) = (f.respond result o).map forget

variable {forget : ω → υ}

theorem Conn.runPhase_forget (hf : f.Forgets g forget) (c : Conn σ) (o : ω) :
    c.runPhase S g (forget o) = Prod.map id forget (c.runPhase S f o) := by
  simp only [runPhase]
  cases c.commandToExecute with
  | none => rfl
  | some cmd =>
    dsimp only
    split_ifs
    · rw [hf.respond]
      cases f.respond (c.execute S cmd).1 o with
      | error e => rfl
      | ok o' => rfl
    · rfl

theorem Conn.pass_forget (hf : f.Forgets g forget) (c : Conn σ) (o : ω) (buffer : Bytes) :
    c.pass S g (forget o) buffer = Prod.map (Prod.map id forget) id (c.pass S f o buffer) := by
  simp only [pass]
  rcases c.parsePhase buffer with ⟨d, _ | rest⟩
  · rfl
  · simp only [runPhase_forget hf]
    rfl

theorem Conn.processLoop_forget (hf : f.Forgets g forget) (fuel : Nat) (c : Conn σ) (o : ω)
    (buffer : Bytes) :
    c.processLoop S g fuel (forget o) buffer = Prod.map id forget (c.processLoop S f fuel o buffer) := by
  induction fuel generalizing c o buffer with
  | zero => rfl
  | succ fuel ih =>
    simp only [processLoop, hf.load]
    split_ifs
    · rw [pass_forget hf]
      rcases c.pass S f (f.runningLoad o).2 buffer with ⟨⟨d, o'⟩, _ | rest⟩
      · rfl
      · exact ih d o' rest
    · rfl

theorem Conn.readLoop_forget (hf : f.Forgets g forget) (c : Conn σ) (o : ω) (chunks : List Bytes) :
    c.readLoop S g (forget o) chunks = Prod.map id forget (c.readLoop S f o chunks) := by
  induction chunks generalizing c o with
  | nil => rfl
  | cons chunk chunks ih =>
    have hp : c.process S g (forget (f.runningLoad o).2) chunk =
        Prod.map id forget (c.process S f (f.runningLoad o).2 chunk) := processLoop_forget hf _ _ _ _
    simp only [readLoop, hf.load, hp, Prod.map_fst, Prod.map_snd, id_eq]
    split_ifs
    · rfl
    · exact ih _ _
    · rfl

end Loops

/-- The bits of `_event.events`. -/
structure Mask extends Events where
  epollet : Bool
  epolloneshot : Bool
  deriving DecidableEq

/-- A mask as `Start`, `DoRead` and `DoWrite` assign it. -/
def Mask.assigned (epollerr epollout : Bool) : Mask := ⟨⟨true, epollout, true, epollerr⟩, false, false⟩

/-- Output side of a `Connection` with the whole of `_event.events`. -/
structure Output where
  results : Bytes
  events : Mask

def Output.pending (o : Output) : Pending := ⟨o.results, o.events.toEvents⟩

/-- `DoRead` of the two non-blocking connections. -/
def masked (epollerr : Bool) : FrontEnd Output where
  runningLoad o := (true, o)
  respond result o := .ok ⟨o.results ++ (result ++ crlf), .assigned epollerr true⟩

theorem masked_forgets (epollerr : Bool) :
    (masked epollerr).Forgets (nonBlocking epollerr) Output.pending :=
  ⟨fun _ => rfl, fun _ _ => rfl⟩

/-- A `Connection` as the event loops handle it. `written` is a history: what `_results` was at each
call of `DoWrite`. -/
structure Polled (σ : Type) where
  conn : Conn σ
  output : Output
  alive : Bool
  accepted : Bytes
  written : List Bytes

namespace Polled

/-- The connection without the flags of its mask. -/
def connection (c : Polled σ) : Connection σ := ⟨c.conn, c.output.pending, c.alive, c.accepted⟩

section

variable (S : Storage σ) (epollerr : Bool)

/-- A new connection after `Start`. -/
def start (storage : σ) (argRemains : Nat) (negative : Bool) : Polled σ :=
  ⟨.create storage argRemains negative, ⟨[], .assigned epollerr false⟩, true, [], []⟩

def onClose (c : Polled σ) : Polled σ := { c with alive := false }

def onError (c : Polled σ) : Polled σ := c.onClose

def doRead (c : Polled σ) (chunks : List Bytes) (last : ReadEnd) : Polled σ :=
  let (conn, output) := { c.conn with fault := none }.readLoop S (masked epollerr) c.output chunks
  let conn := Connection.afterReads conn last
  { c with conn := conn, output := output, alive := c.alive && conn.fault.isNone }

def doWrite (c : Polled σ) (sendResult : Int) : Polled σ :=
  let c := { c with
    accepted := c.accepted ++ c.output.results.take sendResult.toNat
    written := c.written ++ [c.output.results] }
  let sendB := Connection.unsignedLong sendResult
  if sendB ≤ 0 then { c with alive := false }
  else if sendB ≥ c.output.results.length then
    { c with output := ⟨[], .assigned epollerr false⟩ }
  else
    { c with output := ⟨c.output.results.drop sendB, .assigned epollerr true⟩ }

def step : Connection.Op → Polled σ → Option (Unit × Polled σ)
  | .doRead chunks last, c => some ((), c.doRead S epollerr chunks last)
  | .doWrite sendResult, c => some ((), c.doWrite epollerr sendResult)

end

variable {S : Storage σ} {epollerr : Bool}

theorem start_connection (storage : σ) (argRemains : Nat) (negative : Bool) :
    (start epollerr storage argRemains negative).connection =
      .start epollerr storage argRemains negative := rfl

theorem doRead_connection (c : Polled σ) (chunks : List Bytes) (last : ReadEnd) :
    (c.doRead S epollerr chunks last).connection = c.connection.doRead S epollerr chunks last := by
  have hf := Conn.readLoop_forget (S := S) (masked_forgets epollerr) { c.conn with fault := none }
    c.output chunks
  simp only [Connection.doRead]
  change _ = Connection.mk _ _ _ _
  rw [show c.connection.pending = c.output.pending from rfl,
    show c.connection.conn = c.conn from rfl, hf]
  rfl

theorem doWrite_connection (c : Polled σ) (sendResult : Int) :
    (c.doWrite epollerr sendResult).connection = c.connection.doWrite epollerr sendResult := by
  by_cases h0 : Connection.unsignedLong sendResult ≤ 0
  · simp only [doWrite, Connection.doWrite, if_pos h0]
    rfl
  by_cases h1 : Connection.unsignedLong sendResult ≥ c.output.results.length
  · have h1' : Connection.unsignedLong sendResult ≥ c.connection.pending.results.length := h1
    simp only [doWrite, Connection.doWrite, if_neg h0, if_pos h1, if_pos h1']
    rfl
  · have h1' : ¬ Connection.unsignedLong sendResult ≥ c.connection.pending.results.length := h1
    simp only [doWrite, Connection.doWrite, if_neg h0, if_neg h1, if_neg h1']
    rfl

/-- `EPOLLOUT` is asked for just when there is something to write. -/
def Interested (o : Output) : Prop := o.events.epollout = true ↔ o.results ≠ []

theorem masked_interested (epollerr : Bool) : (masked epollerr).Preserves Interested where
  load _ h := h
  respond result o o' _ h := by
    cases h
    simp [Interested, Mask.assigned, crlf, text]

theorem doRead_interested {c : Polled σ} (h : Interested c.output) (chunks : List Bytes)
    (last : ReadEnd) : Interested (c.doRead S epollerr chunks last).output :=
  Conn.readLoop_preserves (masked_interested epollerr) _ h chunks

theorem doWrite_interested {c : Polled σ} (h : Interested c.output) (sendResult : Int) :
    Interested (c.doWrite epollerr sendResult).output := by
  simp only [doWrite]
  split_ifs with h0 h1
  · exact h
  · simp [Interested, Mask.assigned]
  · have hdrop : c.output.results.drop (Connection.unsignedLong sendResult) ≠ [] := by
      rw [ne_eq, List.drop_eq_nil_iff]
      omega
    simp [Interested, Mask.assigned, hdrop]

/-- Any calls of `DoRead` and `DoWrite`, in any order. -/
theorem run_interested (ops : List Connection.Op) {c d : Polled σ} {us : List Unit}
    (h : Interested c.output) (hr : Sysprog.run (step S epollerr) ops c = some (us, d)) :
    Interested d.output := by
  refine run_invariant (step S epollerr) (fun _ _ => True) (fun c => Interested c.output) ?_ ops c d
    us h (AllSteps.of_forall (fun _ _ _ => trivial) c) hr
  intro op c u d hc _ hs
  cases op with
  | doRead chunks last =>
    cases hs
    exact doRead_interested hc chunks last
  | doWrite sendResult =>
    cases hs
    exact doWrite_interested hc sendResult

/-- `DoRead` only adds to what is pending. -/
theorem doRead_results {c : Polled σ} (h : c.output.results ≠ []) (chunks : List Bytes)
    (last : ReadEnd) : (c.doRead S epollerr chunks last).output.results ≠ [] := by
  refine Conn.readLoop_preserves (P := fun o : Output => o.results ≠ []) ⟨fun _ h => h, ?_⟩ _ h chunks
  intro result o o' ho hr
  cases hr
  simp [ho]

end Polled

/-- An event that `epoll_wait` reports, with what the system calls made for it return. -/
structure Reported where
  epollin : Bool
  epollout : Bool
  epollrdhup : Bool
  epollerr : Bool
  epollhup : Bool
  chunks : List Bytes
  last : ReadEnd
  sendResult : Int

/-- A connection, and the mask the kernel has for it. -/
structure Watched (σ : Type) where
  polled : Polled σ
  registered : Option Mask

/-- The event loops: `STnonblock::ServerImpl::OnRun` and `MTnonblock::Worker::OnRun`. -/
inductive Loop where
  | stNonblock
  | mtNonblock
  deriving DecidableEq

namespace Loop

/-- MTnonblock also asks for `EPOLLERR`. -/
def epollerr : Loop → Bool
  | stNonblock => false
  | mtNonblock => true

variable (S : Storage σ)

/-- What both loops do with an event of a connection. -/
def dispatch (l : Loop) (e : Reported) (c : Polled σ) : Polled σ :=
  if e.epollerr || e.epollhup then c.onError
  else if e.epollrdhup then c.onClose
  else
    -- depends on what connection wants
    let c := if e.epollin then c.doRead S l.epollerr e.chunks e.last else c
    if e.epollout then c.doWrite l.epollerr e.sendResult else c

/-- `pconn->_event.events |= EPOLLONESHOT`. -/
def oneshot (c : Polled σ) : Polled σ :=
  { c with output := { c.output with events := { c.output.events with epolloneshot := true } } }

/-- `pc->_event.events |= EPOLLET`. -/
def edgeTriggered (c : Polled σ) : Polled σ :=
  { c with output := { c.output with events := { c.output.events with epollet := true } } }

/-- `EPOLL_CTL_ADD` or `EPOLL_CTL_MOD` with the connection's event. -/
def control (c : Polled σ) : Watched σ := ⟨c, some c.output.events⟩

/-- The acceptor registers a new connection. -/
def register (l : Loop) (storage : σ) (argRemains : Nat) (negative : Bool) : Watched σ :=
  let c := Polled.start l.epollerr storage argRemains negative
  match l with
  | stNonblock => control c
  | mtNonblock => control (oneshot (edgeTriggered c))

/-- One event of a connection: what is done with it and with the registration. -/
def handle (l : Loop) (e : Reported) (w : Watched σ) : Watched σ :=
  let c := l.dispatch S e w.polled
  match l with
  | stNonblock =>
    let oldMask := w.polled.output.events
    -- does it alive?
    if !c.alive then ⟨c, none⟩
    else if c.output.events ≠ oldMask then control c
    else { w with polled := c }
  | mtNonblock =>
    -- rearm connection, or delete closed one
    if c.alive then control (oneshot c)
    else ⟨c, none⟩

/-- `epoll_wait` reports what was asked for, and errors and hang-ups unasked. -/
def Reportable (e : Reported) (w : Watched σ) : Prop :=
  ∃ m, w.registered = some m ∧ (e.epollin = true → m.epollin = true) ∧
    (e.epollout = true → m.epollout = true) ∧ (e.epollrdhup = true → m.epollrdhup = true)

instance (e : Reported) (w : Watched σ) : Decidable (Reportable e w) :=
  match h : w.registered with
  | none => isFalse fun ⟨_, hm, _⟩ => by simp [h] at hm
  | some m => decidable_of_iff ((e.epollin = true → m.epollin = true) ∧
      (e.epollout = true → m.epollout = true) ∧ (e.epollrdhup = true → m.epollrdhup = true))
      (by simp [Reportable, h])

def step (l : Loop) (e : Reported) (w : Watched σ) : Option (Unit × Watched σ) :=
  if Reportable e w then some ((), l.handle S e w) else none

variable {S}

/-- What holds of a connection between two of its events. -/
structure Consistent (w : Watched σ) : Prop where
  interested : Polled.Interested w.polled.output
  registered : ∀ m, w.registered = some m → m = w.polled.output.events
  alive : w.polled.alive = true ↔ w.registered ≠ none
  written : ∀ results ∈ w.polled.written, results ≠ []

theorem register_consistent (l : Loop) (storage : σ) (argRemains : Nat) (negative : Bool) :
    Consistent (l.register storage argRemains negative) := by
  cases l <;> exact ⟨by simp [Polled.Interested, register, control, oneshot, edgeTriggered,
    Polled.start, Mask.assigned], by simp [register, control],
    by simp [register, control, Polled.start, oneshot, edgeTriggered],
    by simp [register, control, Polled.start, oneshot, edgeTriggered]⟩

theorem dispatch_interested (l : Loop) (e : Reported) {c : Polled σ} (h : Polled.Interested c.output) :
    Polled.Interested (l.dispatch S e c).output := by
  have hread : Polled.Interested
      (if e.epollin then c.doRead S l.epollerr e.chunks e.last else c).output := by
    split_ifs
    · exact Polled.doRead_interested h _ _
    · exact h
  simp only [dispatch]
  split_ifs at hread ⊢
  all_goals first
    | exact h
    | exact hread
    | exact Polled.doWrite_interested hread _

/-- Where `EPOLLOUT` is reported only with something to write, `DoWrite` has something to write. -/
theorem dispatch_written (l : Loop) (e : Reported) {c : Polled σ}
    (hout : e.epollout = true → c.output.results ≠ []) (h : ∀ results ∈ c.written, results ≠ []) :
    ∀ results ∈ (l.dispatch S e c).written, results ≠ [] := by
  have hwrite : ∀ d : Polled σ, d.output.results ≠ [] → (∀ results ∈ d.written, results ≠ []) →
      ∀ results ∈ (d.doWrite l.epollerr e.sendResult).written, results ≠ [] := by
    intro d hd hw results hm
    have hm : results ∈ d.written ++ [d.output.results] := by
      simp only [Polled.doWrite] at hm
      split_ifs at hm <;> exact hm
    rcases List.mem_append.mp hm with hm | hm
    · exact hw results hm
    · rwa [List.mem_singleton.mp hm]
  simp only [dispatch]
  split_ifs with herr hrdhup ho hin hin
  · exact h
  · exact h
  · exact hwrite _ (Polled.doRead_results (hout ho) _ _) h
  · exact hwrite _ (hout ho) h
  · exact h
  · exact h

theorem handle_consistent (l : Loop) {e : Reported} {w : Watched σ} (h : Consistent w)
    (hr : Reportable e w) : Consistent (l.handle S e w) := by
  obtain ⟨m, hm, -, hout, -⟩ := hr
  have hwrite : e.epollout = true → w.polled.output.results ≠ [] := by
    intro he
    have hmask := hout he
    rw [h.registered m hm] at hmask
    exact h.interested.mp hmask
  have hi := dispatch_interested (S := S) l e h.interested
  have hw := dispatch_written (S := S) l e hwrite h.written
  cases l with
  | stNonblock =>
    simp only [handle]
    split_ifs with hdead hmask
    · exact ⟨hi, by simp, by simpa using hdead, hw⟩
    · exact ⟨hi, by simp [control], by simpa [control] using hdead, hw⟩
    · -- the mask is the one of the snapshot, and that one is registered
      have hsame := not_not.mp hmask
      refine ⟨hi, ?_, ?_, hw⟩
      · intro m' hm'
        rw [h.registered m' hm', ← hsame]
      · simpa [hm] using hdead
  | mtNonblock =>
    simp only [handle]
    split_ifs with halive
    · exact ⟨hi, by simp [control], by simpa [control, oneshot] using halive, hw⟩
    · exact ⟨hi, by simp, by simpa using halive, hw⟩

theorem handle_connection (l : Loop) (e : Reported) (w : Watched σ) :
    (l.handle S e w).polled.connection = (l.dispatch S e w.polled).connection := by
  cases l with
  | stNonblock =>
    simp only [handle]
    split_ifs <;> rfl
  | mtNonblock =>
    simp only [handle]
    split_ifs <;> rfl

theorem run_consistent (l : Loop) (events : List Reported) {w v : Watched σ} {us : List Unit}
    (h : Consistent w) (hr : Sysprog.run (l.step S) events w = some (us, v)) : Consistent v := by
  refine run_invariant (l.step S) (fun _ _ => True) Consistent ?_ events w v us h
    (AllSteps.of_forall (fun _ _ _ => trivial) w) hr
  intro e w u v hw _ hs
  simp only [step] at hs
  split_ifs at hs with hrep
  cases hs
  exact handle_consistent l hw hrep

end Loop

/-- However a connection is read and written, it asks for `EPOLLOUT` just when it has something to
write; between two events the kernel has the mask of every live connection; and `DoWrite` is never
called with nothing to write. -/
theorem write_interest (S : Storage σ) (l : Loop) (storage : σ) (argRemains : Nat) (negative : Bool) :
    (∀ ops us c, run (Polled.step S l.epollerr) ops
        (.start l.epollerr storage argRemains negative) = some (us, c) →
      (c.output.events.epollout = true ↔ c.output.results ≠ [])) ∧
    ∀ events us w, run (l.step S) events (l.register storage argRemains negative) = some (us, w) →
      (w.polled.output.events.epollout = true ↔ w.polled.output.results ≠ []) ∧
      (w.polled.alive = true → w.registered = some w.polled.output.events) ∧
      ∀ results ∈ w.polled.written, results ≠ [] := by
  constructor
  · intro ops us c hr
    have hstart : Polled.Interested (Polled.start l.epollerr storage argRemains negative).output := by
      simp [Polled.Interested, Polled.start, Mask.assigned]
    exact Polled.run_interested ops hstart hr
  · intro events us w hr
    have hc := Loop.run_consistent l events (Loop.register_consistent l storage argRemains negative) hr
    refine ⟨hc.interested, ?_, hc.written⟩
    intro halive
    obtain ⟨m, hm⟩ := Option.ne_none_iff_exists'.mp (hc.alive.mp halive)
    rw [hm, hc.registered m hm]

/-- A request, half of its response, and another request together with the rest. -/
theorem write_interest_in_parts :
    let events : List Reported :=
      [⟨true, false, false, false, false, [text "stats\r\n"], .failed true [], 0⟩,
        ⟨false, true, false, false, false, [], .closed, 2⟩,
        ⟨true, true, false, false, false, [text "sta", text "ts\r\n"], .failed true [], 4⟩]
    ∃ us w, run (Loop.mtNonblock.step simpleLRU) events
        (Loop.mtNonblock.register (some (Storage.SimpleLRU.create 8)) 0 false) = some (us, w) ∧
      w.polled.written = [text "END\r\n", text "D\r\nEND\r\n"] ∧
      (w.polled.output.events.epollout = true ↔ w.polled.output.results ≠ []) ∧
      (w.polled.alive = true → w.registered = some w.polled.output.events) ∧
      ∀ results ∈ w.polled.written, results ≠ [] := by
  intro events
  have h := write_interest simpleLRU .mtNonblock (some (Storage.SimpleLRU.create 8)) 0 false
  exact ⟨[(), (), ()], _, rfl, by decide, h.2 events [(), (), ()] _ rfl⟩

end Sysprog.Network
