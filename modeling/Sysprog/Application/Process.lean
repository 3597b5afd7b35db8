import Sysprog.Lib.Census
import Sysprog.Network.Isolation

namespace Sysprog.Network

variable {σ : Type} {S : Execute.Storage σ}

/-- One more client, at the end. -/
theorem Conn.onRun_push (c : Conn σ) (clients : List Client) (client : Client) :
    c.onRun S (clients ++ [client]) =
      ((c.onRun S clients).1 ++ [((c.onRun S clients).2.serveClient S client).1],
        ((c.onRun S clients).2.serveClient S client).2) := by
  induction clients generalizing c with
  | nil => rfl
  | cons first clients ih =>
    simp only [List.cons_append, Conn.onRun]
    rw [ih]

/-- One `read` of the loop of a connection. -/
theorem Conn.readLoop_stBlocking (c : Conn σ) (send : Bytes → Bytes → Int) (out : Socket)
    (chunk : Bytes) (chunks : List Bytes) :
    c.readLoop S (stBlocking send) out (chunk :: chunks) =
      let (c, o) := c.process S (stBlocking send) out chunk
      if c.fault.isSome then (c, o) else c.readLoop S (stBlocking send) o chunks := rfl

/-- One more `read`, where those before it have led to no exception. -/
theorem Conn.readLoop_push {c d : Conn σ} {send : Bytes → Bytes → Int} {out o : Socket}
    {chunks : List Bytes} (h : c.readLoop S (stBlocking send) out chunks = (d, o))
    (fine : chunks ≠ [] → d.fault = none) (chunk : Bytes) :
    c.readLoop S (stBlocking send) out (chunks ++ [chunk]) =
      d.process S (stBlocking send) o chunk := by
  induction chunks generalizing c out with
  | nil =>
    cases h
    rw [List.nil_append, readLoop_stBlocking]
    dsimp only [readLoop]
    rw [ite_self]
  | cons first chunks ih =>
    rw [List.cons_append]
    rw [readLoop_stBlocking] at h ⊢
    dsimp only at h ⊢
    split_ifs at h ⊢ with fault
    · cases h
      rw [fine (by simp)] at fault
      cases fault
    · exact ih h fun _ => fine (by simp)

end Sysprog.Network

namespace Sysprog.Application

open Network

variable {σ : Type}

/-- What `sigaction` installs `on_term` for. -/
inductive Signal where
  | int
  | term
  deriving DecidableEq

def Signal.signum : Signal → Nat
  | int => 2
  | term => 15

/-- Where `on_term` stands, for a signal that was delivered. -/
inductive Handler where
  | storing (signal : Signal)
  | posting
  | returned
  deriving DecidableEq

/-- Where `main` stands from `app.Start` on. -/
inductive Main where
  /-- `ServerImpl::Start`, up to `running.store(true)`. -/
  | starting
  /-- Before the `std::thread` of `OnRun`. -/
  | spawning
  /-- `stop_reason == 0`. -/
  | checking
  /-- `sem_wait`. -/
  | waiting
  /-- `running.store(false)`. -/
  | stopping
  | shutdown
  | joining
  /-- `close(_server_socket)`. -/
  | closing
  | returned
  /-- `Start` has thrown, and `main` has caught it and returned. -/
  | failed
  deriving DecidableEq

/-- Where `STblocking::ServerImpl::OnRun` stands. -/
inductive Net where
  | idle
  /-- `while (running.load())`. -/
  | looping
  | accepting
  /-- Before the next `read` of a connection, with what those before it have returned. -/
  | reading (send : Bytes → Bytes → Int) (chunks : List Bytes) (out : Socket)
  /-- Behind the loops of a connection. -/
  | closing (client : Client) (out : Socket)
  | returned

inductive ServerSocket where
  | unopened
  | listening
  | shut
  | closed
  deriving DecidableEq

/-- The process, and the connections that wait to be accepted, each with what its `send` calls
return. `accepted`, `clients` and `outcomes` are history: `clients` are those whose connection was
closed, with all that was read from them. -/
structure State (σ : Type) where
  stopReason : Nat
  stopSemaphore : Nat
  handlers : List Handler
  main : Main
  running : Bool
  serverSocket : ServerSocket
  net : Net
  conn : Conn σ
  backlog : List (Bytes → Bytes → Int)
  accepted : List (Bytes → Bytes → Int)
  clients : List Client
  outcomes : List Outcome

inductive Action where
  /-- `main` goes on. Whether `Start` gets through is up to the kernel. -/
  | main (ok : Bool)
  /-- `sem_wait` returns -1 and `EINTR`. -/
  | interrupt
  | signal (signal : Signal)
  /-- `on_term` goes on for the signal that was delivered as number `k`. -/
  | handler (k : Nat)
  | arrive (send : Bytes → Bytes → Int)
  /-- `OnRun` goes on, but for `read`. An `accept` that is not `ok` returns -1. -/
  | net (ok : Bool)
  /-- A `read` returns bytes, and every `send` they lead to returns. Whether the client goes on like
  this is not up to `OnRun`: the loop over `read` does not look at `running`. -/
  | read (chunk : Bytes)
  /-- A `read` returns 0, or -1 as it does after five seconds of silence. -/
  | ended (last : Option Bytes)

namespace State

/-- Before `app.Start`, with the signal handlers installed. -/
def start (conn : Conn σ) : State σ :=
  ⟨0, 0, [], .starting, false, .unopened, .idle, conn, [], [], [], []⟩

def stepMain (ok : Bool) (s : State σ) : Option (State σ) :=
  match s.main with
  | .starting =>
    if ok then some { s with running := true, serverSocket := .listening, main := .spawning }
    else some { s with main := .failed }
  | .spawning =>
    if ok then some { s with net := .looping, main := .checking }
    else some { s with main := .failed }
  | .checking => some { s with main := if s.stopReason = 0 then .waiting else .stopping }
  | .waiting =>
    if s.stopSemaphore = 0 then none
    else some { s with stopSemaphore := s.stopSemaphore - 1, main := .stopping }
  | .stopping => some { s with running := false, main := .shutdown }
  | .shutdown => some { s with serverSocket := .shut, main := .joining }
  | .joining =>
    match s.net with
    | .returned => some { s with main := .closing }
    | _ => none
  | .closing => some { s with serverSocket := .closed, main := .returned }
  | .returned | .failed => none

def stepHandler (s : State σ) (k : Nat) : Option (State σ) :=
  match s.handlers[k]? with
  | some (.storing signal) =>
    some { s with handlers := s.handlers.set k .posting, stopReason := signal.signum }
  | some .posting =>
    some { s with handlers := s.handlers.set k .returned, stopSemaphore := s.stopSemaphore + 1 }
  | _ => none

def stepNet (ok : Bool) (s : State σ) : Option (State σ) :=
  match s.net with
  | .idle | .returned => none
  | .looping => some { s with net := if s.running then .accepting else .returned }
  | .accepting =>
    if ok = true ∧ s.serverSocket = .listening then
      match s.backlog with
      | [] => none
      | send :: backlog => some { s with
          backlog
          accepted := s.accepted ++ [send]
          net := .reading send [] ⟨[], 0⟩ }
    else some { s with net := .looping }
  | .reading .. => none
  | .closing client out =>
    let c := s.conn.closed client.last
    some { s with
      conn := c.next
      clients := s.clients ++ [client]
      outcomes := s.outcomes ++ [⟨c.executed, out.sent, c.fault⟩]
      net := .looping }

def stepRead (S : Execute.Storage σ) (chunk : Bytes) (s : State σ) : Option (State σ) :=
  match s.net with
  | .reading send chunks out =>
    let (c, o) := s.conn.process S (stBlocking send) out chunk
    let chunks := chunks ++ [chunk]
    some { s with
      conn := c
      net := if c.fault.isSome then .closing ⟨chunks, none, send⟩ o else .reading send chunks o }
  | _ => none

def stepEnded (last : Option Bytes) (s : State σ) : Option (State σ) :=
  match s.net with
  | .reading send chunks out => some { s with net := .closing ⟨chunks, last, send⟩ out }
  | _ => none

/-- One step of the process, or of what is around it. -/
def step (S : Execute.Storage σ) : Action → State σ → Option (Unit × State σ)
  | .main ok, s => (s.stepMain ok).map fun s => ((), s)
  | .interrupt, s =>
    match s.main with
    | .waiting => some ((), { s with main := .checking })
    | _ => none
  | .signal signal, s => some ((), { s with handlers := s.handlers ++ [.storing signal] })
  | .handler k, s => (s.stepHandler k).map fun s => ((), s)
  | .arrive send, s =>
    if s.serverSocket = .listening then some ((), { s with backlog := s.backlog ++ [send] })
    else none
  | .net ok, s => (s.stepNet ok).map fun s => ((), s)
  | .read chunk, s => (s.stepRead S chunk).map fun s => ((), s)
  | .ended last, s => (s.stepEnded last).map fun s => ((), s)

/-- What each step needs and does, spelled out. -/
inductive Moves (S : Execute.Storage σ) (s : State σ) : Action → State σ → Prop where
  | main {ok : Bool} {t : State σ} : s.stepMain ok = some t → Moves S s (.main ok) t
  | interrupt : s.main = .waiting → Moves S s .interrupt { s with main := .checking }
  | signal (signal : Signal) :
    Moves S s (.signal signal) { s with handlers := s.handlers ++ [.storing signal] }
  | handler {k : Nat} {t : State σ} : s.stepHandler k = some t → Moves S s (.handler k) t
  | arrive (send : Bytes → Bytes → Int) : s.serverSocket = .listening →
    Moves S s (.arrive send) { s with backlog := s.backlog ++ [send] }
  | net {ok : Bool} {t : State σ} : s.stepNet ok = some t → Moves S s (.net ok) t
  | read {chunk : Bytes} {t : State σ} : s.stepRead S chunk = some t → Moves S s (.read chunk) t
  | ended {last : Option Bytes} {t : State σ} : s.stepEnded last = some t →
    Moves S s (.ended last) t

theorem moves_of_step {S : Execute.Storage σ} {a : Action} {s t : State σ} {u : Unit}
    (h : step S a s = some (u, t)) : Moves S s a t := by
  cases a with
  | main ok =>
    exact .main (eq_some_of_map h)
  | interrupt =>
    rw [step] at h
    split at h <;> cases h
    exact .interrupt (by assumption)
  | signal signal =>
    cases h
    exact .signal signal
  | handler k =>
    exact .handler (eq_some_of_map h)
  | arrive send =>
    rw [step] at h
    split_ifs at h with listening
    cases h
    exact .arrive send listening
  | net ok =>
    exact .net (eq_some_of_map h)
  | read chunk =>
    exact .read (eq_some_of_map h)
  | ended last =>
    exact .ended (eq_some_of_map h)

end State

namespace Main

/-- On the way to the end of the wait. -/
def awaits : Main → Bool
  | starting | spawning | checking | waiting => true
  | _ => false

/-- Behind the wait. -/
def stops : Main → Bool
  | stopping | shutdown | joining | closing | returned => true
  | _ => false

end Main

def Net.started : Net → Bool
  | idle | returned => false
  | _ => true

def Handler.isReturned (h : Handler) : Bool := h = .returned

namespace State

variable {S : Execute.Storage σ} {conn : Conn σ} {s t : State σ}

/-- What the clients have got is what `OnRun` gives to them one after another. -/
def Served (S : Execute.Storage σ) (conn : Conn σ) (s : State σ) : Prop :=
  match s.net with
  | .reading send chunks out => ∃ c, s.accepted = s.clients.map Client.send ++ [send] ∧
      conn.onRun S s.clients = (s.outcomes, c) ∧
      c.readLoop S (stBlocking send) ⟨[], 0⟩ chunks = (s.conn, out) ∧
      (chunks ≠ [] → s.conn.fault = none)
  | .closing client out => ∃ c, s.accepted = s.clients.map Client.send ++ [client.send] ∧
      conn.onRun S s.clients = (s.outcomes, c) ∧
      c.readLoop S (stBlocking client.send) ⟨[], 0⟩ client.chunks = (s.conn, out)
  | _ => s.accepted = s.clients.map Client.send ∧ conn.onRun S s.clients = (s.outcomes, s.conn)

/-- What holds at each place of `main`. -/
def Stage (s : State σ) : Prop :=
  match s.main with
  | .starting => s.net = .idle ∧ s.serverSocket = .unopened ∧ s.accepted = []
  | .spawning => s.net = .idle ∧ s.running = true ∧ s.serverSocket = .listening ∧ s.accepted = []
  | .checking | .waiting | .stopping =>
    s.net.started = true ∧ s.running = true ∧ s.serverSocket = .listening
  | .shutdown => s.net ≠ .idle ∧ s.running = false ∧ s.serverSocket = .listening
  | .joining => s.net ≠ .idle ∧ s.running = false ∧ s.serverSocket = .shut
  | .closing | .returned => s.net = .returned
  | .failed => s.net = .idle ∧ s.serverSocket ≠ .closed ∧ s.accepted = []

structure Inv (S : Execute.Storage σ) (conn : Conn σ) (s : State σ) : Prop where
  /-- While `main` may still wait, no wake-up is lost. -/
  semaphore : s.main.awaits = true → s.stopSemaphore = s.handlers.countP Handler.isReturned
  stored : s.stopReason = 0 → ∀ h ∈ s.handlers, ∃ signal, h = .storing signal
  delivered : s.stopReason ≠ 0 → s.handlers ≠ []
  reason : s.main.stops = true → s.stopReason ≠ 0
  stage : s.Stage
  served : s.Served S conn

theorem start_inv (S : Execute.Storage σ) (conn : Conn σ) : Inv S conn (start conn) := by
  refine ⟨fun _ => rfl, ?_, fun h => absurd rfl h, ?_, ⟨rfl, rfl, rfl⟩, rfl, rfl⟩
  · intro _ h hh
    cases hh
  · intro h
    cases h

/-- `main` goes on, and nothing else that clients or handlers have to do with. -/
theorem Inv.goto (h : Inv S conn s) {main : Main} {running : Bool} {serverSocket : ServerSocket}
    (awaits : main.awaits = true → s.main.awaits = true)
    (stops : main.stops = true → s.stopReason ≠ 0)
    (stage : Stage { s with main, running, serverSocket }) :
    Inv S conn { s with main, running, serverSocket } :=
  ⟨fun hm => h.semaphore (awaits hm), h.stored, h.delivered, stops, stage, h.served⟩

theorem Inv.spawn (h : Inv S conn s) (hm : s.main = .spawning) :
    Inv S conn { s with net := .looping, main := .checking } := by
  have hstage := h.stage
  have hserved := h.served
  rw [Stage, hm] at hstage
  obtain ⟨idle, running, listening, -⟩ := hstage
  rw [Served, idle] at hserved
  refine ⟨?_, h.stored, h.delivered, ?_, ⟨rfl, running, listening⟩, hserved⟩
  · intro _
    apply h.semaphore
    rw [hm]
    rfl
  · intro hs
    cases hs

/-- `sem_wait` gets through only when a handler has posted, so it has stored its signal before. -/
theorem Inv.acquire (h : Inv S conn s) (hm : s.main = .waiting) (posted : s.stopSemaphore ≠ 0) :
    Inv S conn { s with stopSemaphore := s.stopSemaphore - 1, main := .stopping } := by
  have hstage := h.stage
  rw [Stage, hm] at hstage
  refine ⟨?_, h.stored, h.delivered, ?_, hstage, h.served⟩
  · intro hs
    cases hs
  · intro _ zero
    have count := h.semaphore (by rw [hm]; rfl)
    have pos : 0 < s.handlers.countP Handler.isReturned := by omega
    obtain ⟨k, x, hx, hr⟩ := exists_of_countP_pos pos
    obtain ⟨signal, rfl⟩ := h.stored zero x (List.mem_of_getElem? hx)
    cases hr

theorem main_inv {ok : Bool} (h : Inv S conn s) (hstep : s.stepMain ok = some t) :
    Inv S conn t := by
  have hstage := h.stage
  have hreason := h.reason
  rw [stepMain] at hstep
  rw [Stage] at hstage
  cases hm : s.main with
  | starting =>
    rw [hm] at hstep hstage
    obtain ⟨idle, unopened, none⟩ := hstage
    cases ok with
    | true =>
      cases hstep
      exact h.goto (fun _ => by rw [hm]; rfl) (fun hs => by cases hs) ⟨idle, rfl, rfl, none⟩
    | false =>
      cases hstep
      apply h.goto (fun hs => by cases hs) (fun hs => by cases hs)
      exact ⟨idle, by simp [unopened], none⟩
  | spawning =>
    rw [hm] at hstep hstage
    cases ok with
    | true =>
      cases hstep
      exact h.spawn hm
    | false =>
      cases hstep
      obtain ⟨idle, -, listening, none⟩ := hstage
      apply h.goto (fun hs => by cases hs) (fun hs => by cases hs)
      exact ⟨idle, by simp [listening], none⟩
  | checking =>
    rw [hm] at hstep hstage
    cases hstep
    by_cases zero : s.stopReason = 0
    · rw [if_pos zero]
      exact h.goto (fun _ => by rw [hm]; rfl) (fun hs => by cases hs) hstage
    · rw [if_neg zero]
      exact h.goto (fun hs => by cases hs) (fun _ => zero) hstage
  | waiting =>
    simp only [hm, Option.ite_none_left_eq_some, Option.some.injEq] at hstep
    obtain ⟨pos, rfl⟩ := hstep
    exact h.acquire hm pos
  | stopping =>
    rw [hm] at hstep hstage
    cases hstep
    obtain ⟨started, -, listening⟩ := hstage
    apply h.goto (fun hs => by cases hs) (fun _ => hreason (by rw [hm]; rfl))
    refine ⟨?_, rfl, listening⟩
    intro idle
    rw [idle] at started
    cases started
  | shutdown =>
    rw [hm] at hstep hstage
    cases hstep
    apply h.goto (fun hs => by cases hs) (fun _ => hreason (by rw [hm]; rfl))
    exact ⟨hstage.1, hstage.2.1, rfl⟩
  | joining =>
    rw [hm] at hstep
    dsimp only at hstep
    split at hstep
    · rename_i hn
      cases hstep
      have stage : Stage { s with main := .closing } := hn
      exact h.goto (fun hs => by cases hs) (fun _ => hreason (by rw [hm]; rfl)) stage
    · cases hstep
  | closing =>
    rw [hm] at hstep hstage
    cases hstep
    exact h.goto (fun hs => by cases hs) (fun _ => hreason (by rw [hm]; rfl)) hstage
  | returned | failed => simp [hm] at hstep

theorem interrupt_inv (h : Inv S conn s) (hm : s.main = .waiting) :
    Inv S conn { s with main := .checking } := by
  have hstage := h.stage
  rw [Stage, hm] at hstage
  exact h.goto (fun _ => by rw [hm]; rfl) (fun hs => by cases hs) hstage

theorem signal_inv (h : Inv S conn s) (signal : Signal) :
    Inv S conn { s with handlers := s.handlers ++ [.storing signal] } := by
  refine ⟨?_, ?_, ?_, h.reason, h.stage, h.served⟩
  · intro hm
    rw [countP_push]
    exact h.semaphore hm
  · intro zero x hx
    rcases List.mem_append.mp hx with hx | hx
    · exact h.stored zero x hx
    · exact ⟨signal, List.mem_singleton.mp hx⟩
  · intro _
    simp

theorem handler_inv {k : Nat} (h : Inv S conn s) (hstep : s.stepHandler k = some t) :
    Inv S conn t := by
  rw [stepHandler] at hstep
  cases hk : s.handlers[k]? with
  | none => simp [hk] at hstep
  | some x =>
    have some_handler : ∀ y, s.handlers.set k y ≠ [] := by
      intro y
      apply List.ne_nil_of_length_pos
      rw [List.length_set]
      exact Nat.zero_lt_of_lt (List.getElem?_eq_some_iff.mp hk).1
    cases x with
    | storing signal =>
      simp only [hk, Option.some.injEq] at hstep
      subst hstep
      have nonzero : signal.signum ≠ 0 := by cases signal <;> decide
      refine ⟨?_, fun zero => absurd zero nonzero, fun _ => some_handler _, fun _ => nonzero,
        h.stage, h.served⟩
      intro hm
      rw [show s.stopSemaphore = _ from h.semaphore hm]
      exact (countP_set_eq hk .posting Handler.isReturned rfl).symm
    | posting =>
      simp only [hk, Option.some.injEq] at hstep
      subst hstep
      have nonzero : s.stopReason ≠ 0 := by
        intro zero
        obtain ⟨signal, hx⟩ := h.stored zero _ (List.mem_of_getElem? hk)
        cases hx
      refine ⟨?_, fun zero => absurd zero nonzero, fun _ => some_handler _, fun _ => nonzero,
        h.stage, h.served⟩
      intro hm
      rw [show s.stopSemaphore = _ from h.semaphore hm]
      exact (countP_set_add hk .returned Handler.isReturned).symm
    | returned => simp [hk] at hstep

/-- `OnRun` is somewhere else of what it does while `main` has not joined it. -/
theorem Stage.net {net : Net} {conn' : Conn σ} {backlog accepted : List (Bytes → Bytes → Int)}
    {clients : List Client} {outcomes : List Outcome} (h : s.Stage) (started : s.net.started = true)
    (on : net ≠ .idle) (done : net = .returned → s.running = false) :
    Stage { s with net, conn := conn', backlog, accepted, clients, outcomes } := by
  have idle : s.net ≠ .idle := by
    intro idle
    rw [idle] at started
    cases started
  have through : s.net ≠ .returned := by
    intro returned
    rw [returned] at started
    cases started
  rw [Stage] at h ⊢
  cases hm : s.main with
  | starting | spawning | failed =>
    simp only [hm] at h
    exact absurd h.1 idle
  | checking | waiting | stopping =>
    simp only [hm] at h ⊢
    refine ⟨?_, h.2⟩
    cases net with
    | idle => exact absurd rfl on
    | returned => exact absurd (done rfl) (by simp [h.2.1])
    | _ => rfl
  | shutdown | joining =>
    simp only [hm] at h ⊢
    exact ⟨on, h.2⟩
  | closing | returned =>
    simp only [hm] at h
    exact absurd h through

theorem Inv.net {net : Net} {conn' : Conn σ} {backlog accepted : List (Bytes → Bytes → Int)}
    {clients : List Client} {outcomes : List Outcome} (h : Inv S conn s)
    (started : s.net.started = true) (on : net ≠ .idle) (done : net = .returned → s.running = false)
    (served : Served S conn { s with net, conn := conn', backlog, accepted, clients, outcomes }) :
    Inv S conn { s with net, conn := conn', backlog, accepted, clients, outcomes } :=
  ⟨h.semaphore, h.stored, h.delivered, h.reason, h.stage.net started on done, served⟩

theorem net_inv {ok : Bool} (h : Inv S conn s) (hstep : s.stepNet ok = some t) :
    Inv S conn t := by
  have hserved := h.served
  rw [Served] at hserved
  rw [stepNet] at hstep
  cases hn : s.net with
  | idle | returned | reading => simp [hn] at hstep
  | looping =>
    rw [hn] at hstep hserved
    cases hstep
    apply h.net (by rw [hn]; rfl)
    · split_ifs <;> simp
    · intro returned
      apply Bool.eq_false_of_not_eq_true
      intro running
      rw [if_pos running] at returned
      cases returned
    · split_ifs
      · exact hserved
      · exact hserved
  | accepting =>
    rw [hn] at hstep hserved
    dsimp only at hstep
    split_ifs at hstep
    · cases hb : s.backlog with
      | nil => simp [hb] at hstep
      | cons send backlog =>
        simp only [hb, Option.some.injEq] at hstep
        subst hstep
        apply h.net (by rw [hn]; rfl) (by simp) (by simp)
        refine ⟨s.conn, ?_, hserved.2, rfl, fun h => absurd rfl h⟩
        exact congrArg (· ++ [send]) hserved.1
    · cases hstep
      exact h.net (by rw [hn]; rfl) (by simp) (by simp) hserved
  | closing client out =>
    rw [hn] at hstep hserved
    obtain ⟨c, accepted, served, same⟩ := hserved
    cases hstep
    apply h.net (by rw [hn]; rfl) (by simp) (by simp)
    constructor
    · rw [List.map_append]
      exact accepted
    · rw [Conn.onRun_push, served]
      simp only [Conn.serveClient, same]

theorem read_inv {chunk : Bytes} (h : Inv S conn s) (hstep : s.stepRead S chunk = some t) :
    Inv S conn t := by
  have hserved := h.served
  rw [Served] at hserved
  rw [stepRead] at hstep
  cases hn : s.net with
  | reading send chunks out =>
    rw [hn] at hstep hserved
    obtain ⟨c, accepted, served, same, fine⟩ := hserved
    have more := Conn.readLoop_push same fine chunk
    dsimp only at hstep
    generalize s.conn.process S (stBlocking send) out chunk = r at hstep more
    obtain ⟨c', o⟩ := r
    cases hstep
    apply h.net (by rw [hn]; rfl)
    · split_ifs <;> simp
    · split_ifs <;> simp
    · rw [Served]
      dsimp only
      split_ifs with fault
      · exact ⟨c, accepted, served, more⟩
      · exact ⟨c, accepted, served, more, fun _ => Option.not_isSome_iff_eq_none.mp fault⟩
  | _ => simp [hn] at hstep

theorem ended_inv {last : Option Bytes} (h : Inv S conn s) (hstep : s.stepEnded last = some t) :
    Inv S conn t := by
  have hserved := h.served
  rw [Served] at hserved
  rw [stepEnded] at hstep
  cases hn : s.net with
  | reading send chunks out =>
    rw [hn] at hstep hserved
    obtain ⟨c, accepted, served, same, -⟩ := hserved
    cases hstep
    exact h.net (by rw [hn]; rfl) (by simp) (by simp) ⟨c, accepted, served, same⟩
  | _ => simp [hn] at hstep

theorem step_inv (S : Execute.Storage σ) (conn : Conn σ) (a : Action) (s : State σ) (u : Unit)
    (t : State σ) (h : Inv S conn s) (hstep : step S a s = some (u, t)) : Inv S conn t := by
  cases moves_of_step hstep with
  | main ht => exact main_inv h ht
  | interrupt hm => exact interrupt_inv h hm
  | signal => exact signal_inv h _
  | handler ht => exact handler_inv h ht
  | arrive => exact ⟨h.semaphore, h.stored, h.delivered, h.reason, h.stage, h.served⟩
  | net ht => exact net_inv h ht
  | read ht => exact read_inv h ht
  | ended ht => exact ended_inv h ht

/-- What holds in every state. -/
structure Safe (S : Execute.Storage σ) (conn : Conn σ) (s : State σ) : Prop where
  /-- `main` goes on to `app.Stop` only for a signal whose handler has stored it. -/
  reason : s.main.stops = true → s.handlers ≠ [] ∧ s.stopReason ≠ 0
  /-- A handler that is through has woken `main`. -/
  woken : s.main = .waiting → s.stopSemaphore = 0 → ∀ h ∈ s.handlers, h ≠ .returned
  /-- `OnRun` does not return without such a signal, and never has a closed descriptor. -/
  through : s.net = .returned → s.stopReason ≠ 0
  socket : s.serverSocket = .closed → s.net = .returned
  /-- The clients accepted, but for the one at hand, have got what they get from `OnRun` one after
  another. -/
  answered : ∃ hand c, s.accepted = s.clients.map Client.send ++ hand ∧ hand.length ≤ 1 ∧
    conn.onRun S s.clients = (s.outcomes, c)
  /-- When `main` returns, `OnRun` has returned and every client it had accepted has been served to
  its end. -/
  finished : s.main = .returned → s.net = .returned ∧
    s.accepted = s.clients.map Client.send ∧ conn.onRun S s.clients = (s.outcomes, s.conn)

theorem Inv.safe (h : Inv S conn s) : Safe S conn s := by
  have hstage := h.stage
  have hserved := h.served
  rw [Stage] at hstage
  refine ⟨fun hm => ⟨h.delivered (h.reason hm), h.reason hm⟩, ?_, ?_, ?_, ?_, ?_⟩
  · intro hm zero x hx returned
    have count := h.semaphore (by rw [hm]; rfl)
    rw [zero] at count
    have pos : 0 < s.handlers.countP Handler.isReturned :=
      List.countP_pos_iff.mpr ⟨x, hx, by rw [returned]; rfl⟩
    omega
  · intro hn
    apply h.reason
    cases hm : s.main with
    | starting | spawning | checking | waiting | failed => simp [hm, hn, Net.started] at hstage
    | _ => rfl
  · intro closed
    cases hm : s.main with
    | closing | returned =>
      rw [hm] at hstage
      exact hstage
    | _ => simp [hm, closed] at hstage
  · rw [Served] at hserved
    cases hn : s.net with
    | reading send chunks out =>
      rw [hn] at hserved
      obtain ⟨c, accepted, served, -⟩ := hserved
      exact ⟨[send], c, accepted, Nat.le_refl 1, served⟩
    | closing client out =>
      rw [hn] at hserved
      obtain ⟨c, accepted, served, -⟩ := hserved
      exact ⟨[client.send], c, accepted, Nat.le_refl 1, served⟩
    | _ =>
      rw [hn] at hserved
      refine ⟨[], s.conn, ?_, Nat.zero_le 1, hserved.2⟩
      rw [List.append_nil]
      exact hserved.1
  · intro hm
    rw [hm] at hstage
    rw [Served, hstage] at hserved
    exact ⟨hstage, hserved⟩

end State

end Sysprog.Application
