import Sysprog.Lib.Census
import Sysprog.Network.MtBlocking

namespace Sysprog.Network.MTblocking

/-- Where a connection thread is in its loops. -/
inductive Loop where
  /-- `running.load()` of the outer one. -/
  | checking
  /-- In `read`. -/
  | reading
  /-- In front of the inner one, with the passes it is still to make. -/
  | handling (passes : Nat)
  /-- In `send`, with the passes still to be made behind this one. -/
  | sending (passes : Nat)
  /-- Behind the loops, in front of `close`. -/
  | leaving
  deriving DecidableEq

/-- What `accept` does. -/
inductive Accept where
  | blocks
  | fails
  | returns (fd : Nat)

/-- What `read` does. -/
inductive Read where
  | blocks
  /-- There are bytes, for so many passes. -/
  | returns (passes : Nat)
  /-- End of the stream, or an error. -/
  | ends

/-- What a pass of the inner loop comes to. -/
inductive Pass where
  /-- The next pass: there is no response yet. -/
  | next
  | send
  | throw

/-- The server with the loops of its threads, the descriptors that `Stop` has shut for reading, and
whether `Join` sleeps in `_join_threads.wait`. -/
structure Process where
  server : Server
  loops : List Loop
  shut : List Nat
  sleeping : Bool

/-- One thread goes on; `wake` is a wake-up without a `notify_one`. -/
inductive Turn where
  | main
  | acceptor (result : Accept)
  /-- A connection thread, which is not in `send`. -/
  | thread (t : Nat) (result : Read) (pass : Pass)
  /-- The `send` of a thread returns, more than 0 where it is `ok`. When it does is up to the client:
  `Stop` shuts the sockets for reading only. -/
  | sent (t : Nat) (ok : Bool)
  | wake

namespace Process

variable {p q : Process}

def start (maxConnections : Int) : Process := ⟨.start maxConnections, [], [], false⟩

/-- A step of the server, and what it means for the rest. -/
def lift (p : Process) (a : Action) (f : Process → Process) : Option Process :=
  (Server.step a p.server).map fun (_, server) => f { p with server }

def goto (p : Process) (t : Nat) (loop : Loop) : Process := { p with loops := p.loops.set t loop }

/-- `Stop` and then `Join`. -/
def stepMain (p : Process) : Option Process :=
  match p.server.main with
  | .serving => p.lift .stop id
  | .stopping => p.lift .shutdown id
  | .shutdown => p.lift .shutdownWorkers fun q =>
      { q with shut := (q.server.workers.map Prod.fst).filter (· ∈ q.server.opened) }
  | .stopped =>
    if p.sleeping then none
    else p.lift .joinWorkers fun q => { q with sleeping := ¬ q.server.workers = [] }
  | .joining => p.lift .joinThread id
  | .returned => none

def stepAcceptor (result : Accept) (p : Process) : Option Process :=
  match p.server.acceptor with
  | .checking => p.lift .running id
  | .accepting =>
    if p.server.serverSocket then
      match result with
      | .blocks => none
      | .fails => p.lift (.accept none) id
      | .returns fd => p.lift (.accept (some fd)) id
    else p.lift (.accept none) id
  | .accepted _ => p.lift .lock fun q =>
      match q.server.acceptor with
      | .started _ _ => { q with loops := q.loops ++ [.checking] }
      | _ => q
  | .started _ _ => p.lift .emplace id
  | .done => none

/-- Behind a pass of the inner loop. -/
def passed (p : Process) (t passes : Nat) : Process :=
  p.goto t (if p.server.running = true ∧ passes ≠ 0 then .handling (passes - 1) else .checking)

/-- A thread in its loops. -/
def stepLoop (t fd : Nat) (result : Read) (pass : Pass) (p : Process) : Loop → Option Process
  | .checking => some (p.goto t (if p.server.running then .reading else .leaving))
  | .reading =>
    match result with
    | .blocks => if fd ∈ p.shut then some (p.goto t .leaving) else none
    | .returns passes => some (p.goto t (.handling passes))
    | .ends => some (p.goto t .leaving)
  | .handling passes =>
    match pass with
    | .next => some (p.passed t passes)
    | .send => some (p.goto t (.sending passes))
    | .throw => some (p.goto t .leaving)
  | .sending _ => none
  | .leaving => p.lift (.close t) id

def stepThread (t : Nat) (result : Read) (pass : Pass) (p : Process) : Option Process :=
  match p.server.threads[t]?, p.loops[t]? with
  | some ⟨fd, .processing⟩, some loop => p.stepLoop t fd result pass loop
  | some ⟨_, .closed⟩, _ => p.lift (.cleanup t) fun q =>
      -- `notify_one` where the table is empty
      { q with sleeping := q.sleeping ∧ ¬ q.server.workers = [] }
  | _, _ => none

def stepSent (t : Nat) (ok : Bool) (p : Process) : Option Process :=
  match p.server.threads[t]?, p.loops[t]? with
  | some ⟨_, .processing⟩, some (.sending passes) =>
    some (if ok then p.passed t passes else p.goto t .leaving)
  | _, _ => none

def step (turn : Turn) (p : Process) : Option (Unit × Process) :=
  if p.server.terminated then none
  else
    match turn with
    | .main => p.stepMain.map fun q => ((), q)
    | .acceptor result => (p.stepAcceptor result).map fun q => ((), q)
    | .thread t result pass => (p.stepThread t result pass).map fun q => ((), q)
    | .sent t ok => (p.stepSent t ok).map fun q => ((), q)
    | .wake => if p.sleeping then some ((), { p with sleeping := false }) else none

inductive Moves (p : Process) : Turn → Process → Prop where
  | main {q : Process} : p.stepMain = some q → Moves p .main q
  | acceptor {result : Accept} {q : Process} : p.stepAcceptor result = some q →
    Moves p (.acceptor result) q
  | thread {t : Nat} {result : Read} {pass : Pass} {q : Process} :
    p.stepThread t result pass = some q → Moves p (.thread t result pass) q
  | sent {t : Nat} {ok : Bool} {q : Process} : p.stepSent t ok = some q → Moves p (.sent t ok) q
  | wake : Moves p .wake { p with sleeping := false }

theorem moves_of_step {turn : Turn} {u : Unit} (h : step turn p = some (u, q)) :
    p.server.terminated = false ∧ Moves p turn q := by
  unfold step at h
  by_cases hterm : p.server.terminated = true
  · rw [if_pos hterm] at h
    cases h
  rw [if_neg hterm] at h
  refine ⟨Bool.eq_false_of_not_eq_true hterm, ?_⟩
  cases turn with
  | main =>
    exact .main (eq_some_of_map h)
  | acceptor result =>
    exact .acceptor (eq_some_of_map h)
  | thread t result pass =>
    exact .thread (eq_some_of_map h)
  | sent t ok =>
    exact .sent (eq_some_of_map h)
  | wake =>
    dsimp only at h
    split_ifs at h
    cases h
    exact .wake

theorem moves_of_lift {a : Action} {f : Process → Process} (h : p.lift a f = some q) :
    ∃ b server, p.server.terminated = false ∧ p.server.Moves a b server ∧
      q = f { p with server } := by
  simp only [lift, Option.map_eq_some_iff] at h
  obtain ⟨⟨b, server⟩, hs, rfl⟩ := h
  obtain ⟨hterm, hm⟩ := Server.moves_of_step hs
  exact ⟨b, server, hterm, hm, rfl⟩

/-- `Stop` has gone through the table. -/
def Swept (m : Main) : Prop := m = .stopped ∨ m.joined

structure Inv (p : Process) : Prop where
  table : p.server.terminated = false → Table p.server
  loops : p.loops.length = p.server.threads.length
  running : p.server.running = true ↔ p.server.main = .serving
  socket : p.server.serverSocket = true ↔ p.server.main = .serving ∨ p.server.main = .stopping
  /-- No wake-up is lost. -/
  asleep : p.sleeping = true → p.server.main = .stopped ∧ p.server.workers ≠ []
  /-- A thread that may be blocked in `read` will not be when `Join` waits for it. -/
  swept : Swept p.server.main → ∀ t fd, Processing p.server.threads t fd →
    p.loops[t]? = some .reading → fd ∈ p.shut

theorem start_inv (maxConnections : Int) : Inv (start maxConnections) := by
  refine ⟨fun _ => Table.start maxConnections, rfl, ?_, ?_, ?_, ?_⟩
  · simp [start, Server.start]
  · simp [start, Server.start]
  · intro h
    cases h
  · simp [start, Server.start, Processing]

/-- Neither `main` nor a connection thread has gone on. -/
theorem Inv.frame (h : Inv p) {server : Server} (table : server.terminated = false → Table server)
    (threads : server.threads = p.server.threads) (main : server.main = p.server.main)
    (running : server.running = p.server.running)
    (socket : server.serverSocket = p.server.serverSocket)
    (workers : p.server.workers ≠ [] → server.workers ≠ []) : Inv { p with server } := by
  refine ⟨table, ?_, ?_, ?_, ?_, ?_⟩
  · rw [threads]
    exact h.loops
  · rw [running, main]
    exact h.running
  · rw [socket, main]
    exact h.socket
  · intro hs
    exact ⟨main.trans (h.asleep hs).1, workers (h.asleep hs).2⟩
  · rw [main, threads]
    exact h.swept

/-- `OnRun` goes on. -/
theorem acceptor_inv {result : Accept} (h : Inv p) (hstep : p.stepAcceptor result = some q) :
    Inv q := by
  unfold stepAcceptor at hstep
  cases ha : p.server.acceptor with
  | checking =>
    simp only [ha] at hstep
    obtain ⟨b, s, hterm, hm, rfl⟩ := moves_of_lift hstep
    have table := ((h.table hterm).moves hterm hm).1
    cases hm
    exact h.frame table rfl rfl rfl rfl id
  | accepting =>
    have one : ∀ r, p.lift (.accept r) id = some q → Inv q := by
      intro r hr
      obtain ⟨b, s, hterm, hm, rfl⟩ := moves_of_lift hr
      have table := ((h.table hterm).moves hterm hm).1
      cases hm with
      | refused => exact h.frame table rfl rfl rfl rfl id
      | accept => exact h.frame table rfl rfl rfl rfl id
    simp only [ha] at hstep
    split_ifs at hstep
    · cases result with
      | blocks => cases hstep
      | fails => exact one _ hstep
      | returns fd => exact one _ hstep
    · exact one _ hstep
  | accepted fd =>
    simp only [ha] at hstep
    obtain ⟨b, s, hterm, hm, rfl⟩ := moves_of_lift hstep
    have table := ((h.table hterm).moves hterm hm).1
    cases hm with
    | lock ha' =>
      rw [ha] at ha'
      cases ha'
      by_cases full : p.server.full = true
      · simp only [Server.lockAcceptor, full, if_true] at table ⊢
        exact h.frame table rfl rfl rfl rfl id
      · simp only [Server.lockAcceptor, full, if_false, Bool.false_eq_true] at table ⊢
        refine ⟨table, ?_, h.running, h.socket, h.asleep, ?_⟩
        · simp [h.loops]
        · intro swept t fd' hp hl
          have old : p.loops[t]? = some .reading := getElem?_push_ne hl (by simp)
          have here : t < p.server.threads.length := by
            rw [← h.loops]
            exact (List.getElem?_eq_some_iff.mp old).1
          rw [Processing, List.getElem?_append_left here] at hp
          exact h.swept swept t fd' hp old
  | started fd t =>
    simp only [ha] at hstep
    obtain ⟨b, s, hterm, hm, rfl⟩ := moves_of_lift hstep
    have table := ((h.table hterm).moves hterm hm).1
    cases hm with
    | @emplace fd t ha' =>
      simp only [Server.emplace] at table ⊢
      split_ifs at table ⊢
      · exact h.frame (by simp) rfl rfl rfl rfl id
      · exact h.frame table rfl rfl rfl rfl (by simp)
  | done => simp [ha] at hstep

theorem main_inv (h : Inv p) (hterm : p.server.terminated = false) (hstep : p.stepMain = some q) :
    Inv q := by
  unfold stepMain at hstep
  have awake : p.server.main ≠ .stopped → p.sleeping ≠ true := fun hm hs => hm (h.asleep hs).1
  have table := h.table hterm
  cases hmain : p.server.main with
  | serving =>
    simp only [hmain] at hstep
    obtain ⟨b, s, -, hm, rfl⟩ := moves_of_lift hstep
    have table := (table.moves hterm hm).1
    cases hm
    refine ⟨table, h.loops, by simp, ?_, ?_, by simp [Swept, Main.joined]⟩
    · simp [h.socket, hmain]
    · intro hs
      exact absurd hs (awake (by simp [hmain]))
  | stopping =>
    simp only [hmain] at hstep
    obtain ⟨b, s, -, hm, rfl⟩ := moves_of_lift hstep
    have table := (table.moves hterm hm).1
    cases hm
    refine ⟨table, h.loops, ?_, by simp, ?_, by simp [Swept, Main.joined]⟩
    · simp [h.running, hmain]
    · intro hs
      exact absurd hs (awake (by simp [hmain]))
  | shutdown =>
    simp only [hmain] at hstep
    have unlocked : p.server.Unlocked := by
      simp only [lift, Server.step, hterm, Server.advance, hmain, true_and] at hstep
      by_contra locked
      simp [locked] at hstep
    obtain ⟨b, s, -, hm, rfl⟩ := moves_of_lift hstep
    have table' := (table.moves hterm hm).1
    cases hm
    refine ⟨table', h.loops, ?_, ?_, ?_, ?_⟩
    · simp [h.running, hmain]
    · simp [h.socket, hmain]
    · intro hs
      exact absurd hs (awake (by simp [hmain]))
    · intro _ t fd hp _
      -- a thread in its loop has its entry, and its descriptor is open
      have entry := (table.entry fd t).mpr ⟨hp.pending, unlocked fd t⟩
      simp only [List.mem_filter, List.mem_map, decide_eq_true_eq]
      exact ⟨⟨(fd, t), entry, rfl⟩, table.opened t fd hp⟩
  | stopped =>
    simp only [hmain] at hstep
    split_ifs at hstep
    obtain ⟨b, s, -, hm, rfl⟩ := moves_of_lift hstep
    have table' := (table.moves hterm hm).1
    have swept := h.swept (.inl hmain)
    cases hm
    refine ⟨table', h.loops, ?_, ?_, ?_, fun _ => swept⟩
    · dsimp only
      split_ifs <;> simp [h.running, hmain]
    · dsimp only
      split_ifs <;> simp [h.socket, hmain]
    · intro hs
      have some_left : p.server.workers ≠ [] := by simpa using hs
      exact ⟨if_neg some_left, some_left⟩
  | joining =>
    simp only [hmain] at hstep
    obtain ⟨b, s, -, hm, rfl⟩ := moves_of_lift hstep
    have table' := (table.moves hterm hm).1
    have swept := h.swept (.inr (.inl hmain))
    cases hm
    refine ⟨table', h.loops, ?_, ?_, ?_, fun _ => swept⟩
    · simp [h.running, hmain]
    · simp [h.socket, hmain]
    · intro hs
      exact absurd hs (awake (by simp [hmain]))
  | returned => simp [hmain] at hstep

/-- A thread goes on in its loops. -/
theorem goto_inv (h : Inv p) {t fd : Nat} {loop : Loop}
    (hp : p.server.threads[t]? = some ⟨fd, .processing⟩)
    (read : loop = .reading → p.server.running = true) : Inv (p.goto t loop) := by
  refine ⟨h.table, ?_, h.running, h.socket, h.asleep, ?_⟩
  · rw [goto, List.length_set]
    exact h.loops
  · intro swept u fd' hu hl
    rcases getElem?_set_cases hl with ⟨rfl, rfl⟩ | ⟨-, hl⟩
    · have serving := h.running.mp (read rfl)
      simp [Swept, Main.joined, goto, serving] at swept
    · exact h.swept swept u fd' hu hl

theorem passed_inv (h : Inv p) {t fd : Nat}
    (hp : p.server.threads[t]? = some ⟨fd, .processing⟩) (passes : Nat) :
    Inv (p.passed t passes) := by
  apply goto_inv h hp
  split_ifs <;> simp

theorem loop_inv {t fd : Nat} {result : Read} {pass : Pass} {loop : Loop} (h : Inv p)
    (hp : p.server.threads[t]? = some ⟨fd, .processing⟩)
    (hstep : p.stepLoop t fd result pass loop = some q) : Inv q := by
  cases loop with
  | checking =>
    cases hstep
    apply goto_inv h hp
    intro read
    by_contra running
    rw [if_neg running] at read
    cases read
  | reading =>
    cases result with
    | blocks =>
      simp only [stepLoop] at hstep
      split_ifs at hstep
      cases hstep
      exact goto_inv h hp (by simp)
    | returns passes =>
      cases hstep
      exact goto_inv h hp (by simp)
    | ends =>
      cases hstep
      exact goto_inv h hp (by simp)
  | handling passes =>
    cases pass with
    | next =>
      cases hstep
      exact passed_inv h hp passes
    | send =>
      cases hstep
      exact goto_inv h hp (by simp)
    | throw =>
      cases hstep
      exact goto_inv h hp (by simp)
  | sending passes => cases hstep
  | leaving =>
    obtain ⟨b, s, hterm, hm, rfl⟩ := moves_of_lift hstep
    have table := ((h.table hterm).moves hterm hm).1
    cases hm with
    | close ht =>
      rw [hp] at ht
      cases ht
      refine ⟨table, ?_, h.running, h.socket, h.asleep, ?_⟩
      · simp [Server.close, h.loops]
      · intro swept u fd' hu hl
        exact h.swept swept u fd' ((processing_move hp (by decide)).mp hu).2 hl

theorem thread_inv {t : Nat} {result : Read} {pass : Pass} (h : Inv p)
    (hstep : p.stepThread t result pass = some q) : Inv q := by
  unfold stepThread at hstep
  split at hstep
  · exact loop_inv h (by assumption) hstep
  · obtain ⟨b, s, hterm, hm, rfl⟩ := moves_of_lift hstep
    have table := ((h.table hterm).moves hterm hm).1
    cases hm with
    | @cleanup fd _ ht hu =>
      have own := (h.table hterm).lookup (((h.table hterm).entry fd t).mpr
        ⟨⟨.closed, ht, by decide⟩, hu fd t⟩)
      simp only [Server.cleanup, own] at table ⊢
      refine ⟨table, ?_, h.running, h.socket, ?_, ?_⟩
      · simp [h.loops]
      · intro hs
        simp only [decide_eq_true_eq] at hs
        exact ⟨(h.asleep hs.1).1, hs.2⟩
      · intro swept u fd' hu hl
        exact h.swept swept u fd' ((processing_move ht (by decide)).mp hu).2 hl
  · cases hstep

theorem sent_inv {t : Nat} {ok : Bool} (h : Inv p) (hstep : p.stepSent t ok = some q) : Inv q := by
  unfold stepSent at hstep
  split at hstep
  · cases ok with
    | true =>
      cases hstep
      exact passed_inv h (by assumption) _
    | false =>
      cases hstep
      exact goto_inv h (by assumption) (by simp)
  · cases hstep

end Process

end Sysprog.Network.MTblocking
