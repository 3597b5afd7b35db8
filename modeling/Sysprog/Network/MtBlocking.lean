import Sysprog.Lib.Run

namespace Sysprog.Network.MTblocking

/-- Where a connection thread stands: in its loop, behind `close`, or behind its cleanup. -/
inductive Phase where
  | processing
  | closed
  | done
  deriving DecidableEq

/-- A thread that runs `_connection_processing(client_socket)`. -/
structure Thread where
  clientSocket : Nat
  phase : Phase
  deriving DecidableEq

/-- Where `OnRun` stands. Between `started` and the next round it holds `_main_mutex`. -/
inductive Acceptor where
  | checking
  | accepting
  | accepted (clientSocket : Nat)
  | started (clientSocket thread : Nat)
  | done
  deriving DecidableEq

/-- Where the main thread stands: `Stop` goes as far as `stopped`, `Join` from there on. -/
inductive Main where
  | serving
  | stopping
  | shutdown
  | stopped
  | joining
  | returned
  deriving DecidableEq

structure Server where
  maxConnections : Int
  running : Bool
  /-- `_server_socket` still accepts. -/
  serverSocket : Bool
  acceptor : Acceptor
  /-- The client descriptors that are open. -/
  opened : List Nat
  /-- All connection threads ever started. -/
  threads : List Thread
  /-- `_workers`: descriptors and the threads of their `std::thread` objects. -/
  workers : List (Nat × Nat)
  main : Main
  /-- The process is gone: a joinable `std::thread` was destroyed, or `end()` was dereferenced. -/
  terminated : Bool
  deriving DecidableEq

/-- After `Start`. -/
def Server.start (maxConnections : Int) : Server :=
  ⟨maxConnections, true, true, .checking, [], [], [], .serving, false⟩

/-- One thread goes on. -/
inductive Action where
  | running
  | accept (result : Option Nat)
  | lock
  | emplace
  | close (thread : Nat)
  | cleanup (thread : Nat)
  | stop
  | shutdown
  | shutdownWorkers
  | joinWorkers
  | joinThread

/-- What can be seen of a step: whether an emplaced key was there already, and the thread of the
entry that a cleanup has found. -/
inductive Observed where
  | nothing
  | emplaced (present : Bool)
  | cleaned (thread : Nat) (found : Option Nat)
  deriving DecidableEq

namespace Server

/-- `_main_mutex` is free. -/
def Unlocked (s : Server) : Prop := ∀ fd t, s.acceptor ≠ .started fd t

instance (s : Server) : Decidable s.Unlocked :=
  match h : s.acceptor with
  | .started fd t => isFalse fun hu => hu fd t h
  | .checking | .accepting | .accepted _ | .done => isTrue fun _ _ => by simp [h]

/-- `_workers.size() >= _max_connections`, a comparison of unsigned numbers. -/
def full (s : Server) : Bool := s.workers.length ≥ (s.maxConnections % 2 ^ 64).toNat

/-- The locked section of `OnRun` up to the start of the thread. -/
def lockAcceptor (fd : Nat) (s : Server) : Server :=
  if s.full then { s with opened := s.opened.erase fd, acceptor := .checking }
  else { s with
    threads := s.threads ++ [⟨fd, .processing⟩]
    acceptor := .started fd s.threads.length }

/-- `_workers.emplace`. If the key is there the new `std::thread` is destroyed while joinable. -/
def emplace (fd t : Nat) (s : Server) : Observed × Server :=
  if (s.workers.lookup fd).isSome then (.emplaced true, { s with terminated := true })
  else (.emplaced false, { s with workers := s.workers ++ [(fd, t)], acceptor := .checking })

/-- `close(client_socket)` at the end of a connection. -/
def close (t fd : Nat) (s : Server) : Server :=
  { s with threads := s.threads.set t ⟨fd, .closed⟩, opened := s.opened.erase fd }

/-- The locked section of a connection thread. -/
def cleanup (t fd : Nat) (s : Server) : Observed × Server :=
  match s.workers.lookup fd with
  | none => (.cleaned t none, { s with terminated := true })
  | some u => (.cleaned t (some u), { s with
      threads := s.threads.set t ⟨fd, .done⟩
      workers := s.workers.filter fun w => w.1 ≠ fd })

/-- The step of a thread that still can take it. -/
def advance (a : Action) (s : Server) : Option (Observed × Server) :=
  match a with
  | .running =>
    if s.acceptor = .checking then
      some (.nothing, { s with acceptor := if s.running then .accepting else .done })
    else none
  | .accept none =>
    if s.acceptor = .accepting then some (.nothing, { s with acceptor := .checking }) else none
  | .accept (some fd) =>
    -- any descriptor that is not open
    if s.acceptor = .accepting ∧ s.serverSocket = true ∧ fd ∉ s.opened then
      some (.nothing, { s with acceptor := .accepted fd, opened := fd :: s.opened })
    else none
  | .lock =>
    match s.acceptor with
    | .accepted fd => some (.nothing, s.lockAcceptor fd)
    | _ => none
  | .emplace =>
    match s.acceptor with
    | .started fd t => some (s.emplace fd t)
    | _ => none
  | .close t =>
    match s.threads[t]? with
    | some ⟨fd, .processing⟩ => some (.nothing, s.close t fd)
    | _ => none
  | .cleanup t =>
    match s.threads[t]? with
    | some ⟨fd, .closed⟩ => if s.Unlocked then some (s.cleanup t fd) else none
    | _ => none
  | .stop =>
    if s.main = .serving then some (.nothing, { s with running := false, main := .stopping }) else none
  | .shutdown =>
    if s.main = .stopping then some (.nothing, { s with serverSocket := false, main := .shutdown })
    else none
  | .shutdownWorkers =>
    -- the reads of the connections end; they may end at any time
    if s.main = .shutdown ∧ s.Unlocked then some (.nothing, { s with main := .stopped }) else none
  | .joinWorkers =>
    -- waits, and looks again whenever it is woken up
    if s.main = .stopped ∧ s.Unlocked then
      some (.nothing, { s with main := if s.workers = [] then .joining else .stopped })
    else none
  | .joinThread =>
    if s.main = .joining ∧ s.acceptor = .done then some (.nothing, { s with main := .returned })
    else none

def step (a : Action) (s : Server) : Option (Observed × Server) :=
  if s.terminated then none else s.advance a

/-- What each step needs and does, spelled out. -/
inductive Moves (s : Server) : Action → Observed → Server → Prop where
  | running : s.acceptor = .checking →
    Moves s .running .nothing { s with acceptor := if s.running then .accepting else .done }
  | refused : s.acceptor = .accepting → Moves s (.accept none) .nothing { s with acceptor := .checking }
  | accept {fd : Nat} : s.acceptor = .accepting → s.serverSocket = true → fd ∉ s.opened →
    Moves s (.accept (some fd)) .nothing { s with acceptor := .accepted fd, opened := fd :: s.opened }
  | lock {fd : Nat} : s.acceptor = .accepted fd → Moves s .lock .nothing (s.lockAcceptor fd)
  | emplace {fd t : Nat} : s.acceptor = .started fd t →
    Moves s .emplace (s.emplace fd t).1 (s.emplace fd t).2
  | close {fd t : Nat} : s.threads[t]? = some ⟨fd, .processing⟩ →
    Moves s (.close t) .nothing (s.close t fd)
  | cleanup {fd t : Nat} : s.threads[t]? = some ⟨fd, .closed⟩ → s.Unlocked →
    Moves s (.cleanup t) (s.cleanup t fd).1 (s.cleanup t fd).2
  | stop : s.main = .serving →
    Moves s .stop .nothing { s with running := false, main := .stopping }
  | shutdown : s.main = .stopping →
    Moves s .shutdown .nothing { s with serverSocket := false, main := .shutdown }
  | shutdownWorkers : s.main = .shutdown →
    Moves s .shutdownWorkers .nothing { s with main := .stopped }
  | joinWorkers : s.main = .stopped → s.Unlocked →
    Moves s .joinWorkers .nothing { s with main := if s.workers = [] then .joining else .stopped }
  | joinThread : s.acceptor = .done → s.main = .joining →
    Moves s .joinThread .nothing { s with main := .returned }

theorem moves_of_advance {a : Action} {s t : Server} {b : Observed}
    (h : s.advance a = some (b, t)) : Moves s a b t := by
  cases a with
  | running =>
    obtain ⟨ha, hs⟩ := Option.ite_none_right_eq_some.mp h
    cases hs
    exact .running ha
  | accept result =>
    cases result with
    | none =>
      obtain ⟨ha, hs⟩ := Option.ite_none_right_eq_some.mp h
      cases hs
      exact .refused ha
    | some fd =>
      obtain ⟨⟨ha, hsocket, hfd⟩, hs⟩ := Option.ite_none_right_eq_some.mp h
      cases hs
      exact .accept ha hsocket hfd
  | lock =>
    simp only [advance] at h
    split at h <;> cases h
    exact .lock ‹_›
  | emplace =>
    simp only [advance] at h
    split at h
    · have hm := Moves.emplace (s := s) ‹_›
      rwa [Option.some.inj h] at hm
    · cases h
  | close u =>
    simp only [advance] at h
    split at h <;> cases h
    exact .close ‹_›
  | cleanup u =>
    simp only [advance] at h
    split at h
    · obtain ⟨hu, hs⟩ := Option.ite_none_right_eq_some.mp h
      have hm := Moves.cleanup (s := s) ‹_› hu
      rwa [Option.some.inj hs] at hm
    · cases h
  | stop =>
    obtain ⟨hm, hs⟩ := Option.ite_none_right_eq_some.mp h
    cases hs
    exact .stop hm
  | shutdown =>
    obtain ⟨hm, hs⟩ := Option.ite_none_right_eq_some.mp h
    cases hs
    exact .shutdown hm
  | shutdownWorkers =>
    obtain ⟨⟨hm, -⟩, hs⟩ := Option.ite_none_right_eq_some.mp h
    cases hs
    exact .shutdownWorkers hm
  | joinWorkers =>
    obtain ⟨⟨hm, hu⟩, hs⟩ := Option.ite_none_right_eq_some.mp h
    cases hs
    exact .joinWorkers hm hu
  | joinThread =>
    obtain ⟨⟨hm, ha⟩, hs⟩ := Option.ite_none_right_eq_some.mp h
    cases hs
    exact .joinThread ha hm

theorem moves_of_step {a : Action} {s t : Server} {b : Observed} (h : step a s = some (b, t)) :
    s.terminated = false ∧ Moves s a b t := by
  unfold step at h
  cases hterm : s.terminated with
  | true => simp [hterm] at h
  | false => exact ⟨rfl, moves_of_advance (by simpa [hterm] using h)⟩

end Server

/-- Thread `t` is in its loop for the descriptor. -/
def Processing (threads : List Thread) (t fd : Nat) : Prop := threads[t]? = some ⟨fd, .processing⟩

/-- Thread `t` has still to clean up after the descriptor. -/
def Pending (threads : List Thread) (t fd : Nat) : Prop :=
  ∃ phase, threads[t]? = some ⟨fd, phase⟩ ∧ phase ≠ .done

section Threads

variable {threads : List Thread} {t u fd fd' : Nat}

theorem Processing.pending (h : Processing threads t fd) : Pending threads t fd :=
  ⟨.processing, h, by decide⟩

theorem Pending.lt (h : Pending threads t fd) : t < threads.length := by
  obtain ⟨phase, h, -⟩ := h
  exact (List.getElem?_eq_some_iff.mp h).1

theorem Pending.unique (h : Pending threads t fd) (h' : Pending threads t fd') : fd = fd' := by
  obtain ⟨phase, h, -⟩ := h
  obtain ⟨phase', h', -⟩ := h'
  rw [h] at h'
  cases h'
  rfl

theorem getElem?_start (fd' : Nat) (phase : Phase) :
    (threads ++ [⟨fd, .processing⟩])[t]? = some ⟨fd', phase⟩ ↔
      threads[t]? = some ⟨fd', phase⟩ ∨ t = threads.length ∧ fd' = fd ∧ phase = .processing := by
  rcases Nat.lt_trichotomy t threads.length with hlt | rfl | hgt
  · rw [List.getElem?_append_left hlt]
    simp [Nat.ne_of_lt hlt]
  · simp [eq_comm]
  · rw [List.getElem?_append_right (Nat.le_of_lt hgt)]
    have h1 : threads[t]? = none := List.getElem?_eq_none (Nat.le_of_lt hgt)
    have h2 : ([⟨fd, .processing⟩] : List Thread)[t - threads.length]? = none :=
      List.getElem?_eq_none (by simp only [List.length_singleton]; omega)
    simp [h1, h2, Nat.ne_of_gt hgt]

theorem processing_start :
    Processing (threads ++ [⟨fd, .processing⟩]) t fd' ↔
      Processing threads t fd' ∨ t = threads.length ∧ fd' = fd := by
  simp [Processing, getElem?_start]

theorem pending_start :
    Pending (threads ++ [⟨fd, .processing⟩]) t fd' ↔
      Pending threads t fd' ∨ t = threads.length ∧ fd' = fd := by
  constructor
  · intro h
    obtain ⟨phase, h, hp⟩ := h
    rcases (getElem?_start fd' phase).mp h with h | ⟨ht, hfd, -⟩
    · exact .inl ⟨phase, h, hp⟩
    · exact .inr ⟨ht, hfd⟩
  · intro h
    rcases h with ⟨phase, h, hp⟩ | ⟨ht, hfd⟩
    · exact ⟨phase, (getElem?_start fd' phase).mpr (.inl h), hp⟩
    · exact ⟨.processing, (getElem?_start fd' _).mpr (.inr ⟨ht, hfd, rfl⟩), by decide⟩

theorem getElem?_move {old phase phase' : Phase} (h : threads[t]? = some ⟨fd, old⟩) :
    (threads.set t ⟨fd, phase⟩)[u]? = some ⟨fd', phase'⟩ ↔
      u ≠ t ∧ threads[u]? = some ⟨fd', phase'⟩ ∨ u = t ∧ fd' = fd ∧ phase' = phase := by
  by_cases hu : u = t
  · subst hu
    have hlt := (List.getElem?_eq_some_iff.mp h).1
    simp [hlt, eq_comm]
  · simp [List.getElem?_set_ne (Ne.symm hu), hu]

/-- A thread that leaves its loop. -/
theorem processing_move {old phase : Phase} (h : threads[t]? = some ⟨fd, old⟩)
    (hp : phase ≠ .processing) :
    Processing (threads.set t ⟨fd, phase⟩) u fd' ↔ u ≠ t ∧ Processing threads u fd' := by
  simp [Processing, getElem?_move h, hp.symm]

theorem pending_close (h : threads[t]? = some ⟨fd, .processing⟩) :
    Pending (threads.set t ⟨fd, .closed⟩) u fd' ↔ Pending threads u fd' := by
  constructor
  · intro hu
    obtain ⟨phase, hu, hp⟩ := hu
    rcases (getElem?_move h).mp hu with ⟨-, hu⟩ | ⟨rfl, rfl, -⟩
    · exact ⟨phase, hu, hp⟩
    · exact ⟨.processing, h, by decide⟩
  · intro hu
    obtain ⟨phase, hu, hp⟩ := hu
    by_cases hut : u = t
    · subst hut
      rw [h] at hu
      cases hu
      exact ⟨.closed, (getElem?_move h).mpr (.inr ⟨rfl, rfl, rfl⟩), by decide⟩
    · exact ⟨phase, (getElem?_move h).mpr (.inl ⟨hut, hu⟩), hp⟩

theorem pending_done {old : Phase} (h : threads[t]? = some ⟨fd, old⟩) :
    Pending (threads.set t ⟨fd, .done⟩) u fd' ↔ u ≠ t ∧ Pending threads u fd' := by
  constructor
  · intro hu
    obtain ⟨phase, hu, hp⟩ := hu
    rcases (getElem?_move h).mp hu with ⟨hut, hu⟩ | ⟨-, -, hd⟩
    · exact ⟨hut, phase, hu, hp⟩
    · exact absurd hd hp
  · intro hu
    obtain ⟨hut, phase, hu, hp⟩ := hu
    exact ⟨phase, (getElem?_move h).mpr (.inl ⟨hut, hu⟩), hp⟩

end Threads

/-- The table and the threads agree: an entry is there for each thread from its start to its
cleanup, but for one that is just being emplaced. -/
structure Table (s : Server) : Prop where
  entry : ∀ fd t, (fd, t) ∈ s.workers ↔ Pending s.threads t fd ∧ s.acceptor ≠ .started fd t
  keys : (s.workers.map Prod.fst).Nodup
  opened : ∀ t fd, Processing s.threads t fd → fd ∈ s.opened
  distinct : ∀ t u fd, Processing s.threads t fd → Processing s.threads u fd → t = u
  accepted : ∀ fd, s.acceptor = .accepted fd → fd ∈ s.opened ∧ ∀ t, ¬ Processing s.threads t fd
  started : ∀ fd t, s.acceptor = .started fd t →
    Pending s.threads t fd ∧ ∀ u, Processing s.threads u fd → u = t

namespace Table

variable {s : Server} {t fd : Nat}

theorem start (maxConnections : Int) : Table (.start maxConnections) := by
  refine ⟨?_, by simp [Server.start], ?_, ?_, by simp [Server.start], by simp [Server.start]⟩
  · simp [Server.start, Pending]
  · simp [Server.start, Processing]
  · simp [Server.start, Processing]

/-- The acceptor goes from one point to another where it has no descriptor in hand. -/
theorem idle (h : Table s) {a : Acceptor} (hs : s.Unlocked)
    (ha : (∀ fd, a ≠ .accepted fd) ∧ ∀ fd t, a ≠ .started fd t) : Table { s with acceptor := a } := by
  refine ⟨?_, h.keys, h.opened, h.distinct, ?_, ?_⟩
  · intro fd t
    simp only [h.entry, ne_eq, hs fd t, ha.2 fd t]
  · intro fd hfd
    exact absurd hfd (ha.1 fd)
  · intro fd t hfd
    exact absurd hfd (ha.2 fd t)

theorem accept (h : Table s) (hs : s.Unlocked) (hfd : fd ∉ s.opened) :
    Table { s with acceptor := .accepted fd, opened := fd :: s.opened } := by
  refine ⟨?_, h.keys, ?_, h.distinct, ?_, by simp⟩
  · intro fd' t
    simp [h.entry, hs fd' t]
  · intro t fd' hp
    exact List.mem_cons_of_mem _ (h.opened t fd' hp)
  · intro fd' he
    cases he
    exact ⟨List.mem_cons_self, fun t hp => hfd (h.opened t _ hp)⟩

/-- Too many connections: the new one is closed. -/
theorem reject (h : Table s) (ha : s.acceptor = .accepted fd) :
    Table { s with opened := s.opened.erase fd, acceptor := .checking } := by
  obtain ⟨-, hno⟩ := h.accepted fd ha
  refine ⟨?_, h.keys, ?_, h.distinct, by simp, by simp⟩
  · intro fd' t
    simp [h.entry, ha]
  · intro t fd' hp
    have hne : fd' ≠ fd := by
      intro he
      subst he
      exact hno t hp
    exact (List.mem_erase_of_ne hne).mpr (h.opened t fd' hp)

theorem spawn (h : Table s) (ha : s.acceptor = .accepted fd) :
    Table { s with
      threads := s.threads ++ [⟨fd, .processing⟩]
      acceptor := .started fd s.threads.length } := by
  obtain ⟨hopen, hno⟩ := h.accepted fd ha
  refine ⟨?_, h.keys, ?_, ?_, by simp, ?_⟩
  · intro fd' t
    rw [h.entry, pending_start]
    constructor
    · intro hp
      refine ⟨.inl hp.1, ?_⟩
      intro he
      cases he
      exact absurd hp.1.lt (Nat.lt_irrefl _)
    · intro hp
      obtain ⟨hp | ⟨ht, hfd⟩, hne⟩ := hp
      · exact ⟨hp, by simp [ha]⟩
      · exact absurd (by rw [ht, hfd]) hne
  · intro t fd' hp
    rcases processing_start.mp hp with hp | ⟨-, hfd⟩
    · exact h.opened t fd' hp
    · exact hfd ▸ hopen
  · intro t u fd' ht hu
    rcases processing_start.mp ht with ht | ⟨ht, hfd⟩ <;> rcases processing_start.mp hu with hu | ⟨hu, hfd'⟩
    · exact h.distinct t u fd' ht hu
    · exact absurd (hfd' ▸ ht) (hno t)
    · exact absurd (hfd ▸ hu) (hno u)
    · rw [ht, hu]
  · intro fd' t he
    cases he
    refine ⟨pending_start.mpr (.inr ⟨rfl, rfl⟩), ?_⟩
    intro u hu
    rcases processing_start.mp hu with hu | ⟨hu, -⟩
    · exact absurd hu (hno u)
    · exact hu

theorem lock (h : Table s) (ha : s.acceptor = .accepted fd) : Table (s.lockAcceptor fd) := by
  unfold Server.lockAcceptor
  split_ifs
  · exact h.reject ha
  · exact h.spawn ha

/-- A new entry under a key that is not there. -/
theorem emplace (h : Table s) (ha : s.acceptor = .started fd t)
    (hfree : ∀ u, (fd, u) ∉ s.workers) :
    Table { s with workers := s.workers ++ [(fd, t)], acceptor := .checking } := by
  obtain ⟨hpending, -⟩ := h.started fd t ha
  refine ⟨?_, ?_, h.opened, h.distinct, by simp, by simp⟩
  · intro fd' u
    rw [List.mem_append, h.entry, List.mem_singleton, ha]
    constructor
    · intro hm
      rcases hm with ⟨hp, -⟩ | he
      · exact ⟨hp, by simp⟩
      · cases he
        exact ⟨hpending, by simp⟩
    · intro hm
      by_cases he : (fd', u) = (fd, t)
      · exact .inr he
      · refine .inl ⟨hm.1, ?_⟩
        intro hs
        cases hs
        exact he rfl
  · rw [List.map_append, List.nodup_append]
    refine ⟨h.keys, by simp, ?_⟩
    intro k hk k' hk' he
    obtain ⟨⟨fd', u⟩, hm, rfl⟩ := List.mem_map.mp hk
    obtain rfl : k' = fd := by simpa using hk'
    exact hfree u (he ▸ hm)

theorem close (h : Table s) (ht : s.threads[t]? = some ⟨fd, .processing⟩) : Table (s.close t fd) := by
  refine ⟨?_, h.keys, ?_, ?_, ?_, ?_⟩
  · intro fd' u
    simp only [Server.close, pending_close ht]
    exact h.entry fd' u
  · intro u fd' hu
    obtain ⟨hut, hp⟩ := (processing_move ht (by decide)).mp hu
    have hne : fd' ≠ fd := by
      intro he
      exact hut (h.distinct u t fd' hp (he ▸ ht))
    exact (List.mem_erase_of_ne hne).mpr (h.opened u fd' hp)
  · intro u v fd' hu hv
    exact h.distinct u v fd' ((processing_move ht (by decide)).mp hu).2
      ((processing_move ht (by decide)).mp hv).2
  · intro fd' ha
    obtain ⟨hopen, hno⟩ := h.accepted fd' ha
    have hne : fd' ≠ fd := by
      intro he
      subst he
      exact hno t ht
    exact ⟨(List.mem_erase_of_ne hne).mpr hopen,
      fun u hu => hno u ((processing_move ht (by decide)).mp hu).2⟩
  · intro fd' u ha
    obtain ⟨hp, honly⟩ := h.started fd' u ha
    exact ⟨(pending_close ht).mpr hp, fun v hv => honly v ((processing_move ht (by decide)).mp hv).2⟩

theorem absent_of_lookup (h : s.workers.lookup fd = none) (u : Nat) : (fd, u) ∉ s.workers := by
  intro hm
  simpa using List.lookup_eq_none_iff.mp h _ hm

theorem mem_of_lookup {u : Nat} (h : s.workers.lookup fd = some u) : (fd, u) ∈ s.workers := by
  obtain ⟨ws, vs, hsplit, -⟩ := List.lookup_eq_some_iff.mp h
  simp [hsplit]

/-- The entry that a thread finds at its end is its own. -/
theorem lookup (h : Table s) (hm : (fd, t) ∈ s.workers) : s.workers.lookup fd = some t := by
  cases hl : s.workers.lookup fd with
  | none => exact absurd hm (absent_of_lookup hl t)
  | some u =>
    have he := List.inj_on_of_nodup_map h.keys (mem_of_lookup hl) hm rfl
    cases he
    rfl

theorem cleanup (h : Table s) (ht : s.threads[t]? = some ⟨fd, .closed⟩) (hs : s.Unlocked) :
    Table { s with
      threads := s.threads.set t ⟨fd, .done⟩
      workers := s.workers.filter fun w => w.1 ≠ fd } := by
  have hmine : (fd, t) ∈ s.workers := (h.entry fd t).mpr ⟨⟨.closed, ht, by decide⟩, hs fd t⟩
  refine ⟨?_, ?_, ?_, ?_, ?_, ?_⟩
  · intro fd' u
    rw [List.mem_filter, h.entry, pending_done ht]
    constructor
    · intro hm
      obtain ⟨⟨hp, ha⟩, hne⟩ := hm
      refine ⟨⟨?_, hp⟩, ha⟩
      intro hut
      subst hut
      exact absurd (hp.unique ⟨.closed, ht, by decide⟩) (by simpa using hne)
    · intro hm
      obtain ⟨⟨hut, hp⟩, ha⟩ := hm
      refine ⟨⟨hp, ha⟩, ?_⟩
      have hne : fd' ≠ fd := by
        intro he
        subst he
        have hu := h.lookup ((h.entry fd' u).mpr ⟨hp, ha⟩)
        rw [h.lookup hmine] at hu
        exact hut (Option.some.inj hu).symm
      simpa using hne
  · exact h.keys.sublist (List.filter_sublist.map _)
  · intro u fd' hu
    exact h.opened u fd' ((processing_move ht (by decide)).mp hu).2
  · intro u v fd' hu hv
    exact h.distinct u v fd' ((processing_move ht (by decide)).mp hu).2
      ((processing_move ht (by decide)).mp hv).2
  · intro fd' ha
    obtain ⟨hopen, hno⟩ := h.accepted fd' ha
    exact ⟨hopen, fun u hu => hno u ((processing_move ht (by decide)).mp hu).2⟩
  · intro fd' u ha
    exact absurd ha (hs fd' u)

end Table

/-- No other thread stands between its `close` of the descriptor to be emplaced and its cleanup. -/
def Sole (threads : List Thread) : Acceptor → Prop
  | .started fd t => ∀ u < threads.length, threads[u]? = some ⟨fd, .closed⟩ → u = t
  | _ => True

instance (threads : List Thread) : ∀ a, Decidable (Sole threads a)
  | .started fd t => inferInstanceAs
      (Decidable (∀ u < threads.length, threads[u]? = some ⟨fd, .closed⟩ → u = t))
  | .checking | .accepting | .accepted _ | .done => inferInstanceAs (Decidable True)

/-- The acceptor does not emplace a descriptor while another thread has still to clean up after it. -/
def Settled : Action → Server → Prop
  | .emplace, s => Sole s.threads s.acceptor
  | _, _ => True

instance : ∀ a s, Decidable (Settled a s)
  | .emplace, s => inferInstanceAs (Decidable (Sole s.threads s.acceptor))
  | .running, _ | .accept _, _ | .lock, _ | .close _, _ | .cleanup _, _ | .stop, _ | .shutdown, _
  | .shutdownWorkers, _ | .joinWorkers, _ | .joinThread, _ => inferInstanceAs (Decidable True)

/-- An emplaced key was not there yet, and a cleanup has found the entry of its own thread. -/
def Observed.InOrder : Observed → Prop
  | nothing => True
  | emplaced present => present = false
  | cleaned thread found => found = some thread

/-- Without another thread behind its `close`, the key is not there. -/
theorem Table.absent {s : Server} {fd t : Nat} (h : Table s) (ha : s.acceptor = .started fd t)
    (hs : Settled .emplace s) (u : Nat) : (fd, u) ∉ s.workers := by
  intro hm
  obtain ⟨hp, hne⟩ := (h.entry fd u).mp hm
  obtain ⟨-, honly⟩ := h.started fd t ha
  have hu : u = t := by
    obtain ⟨phase, hu, hd⟩ := id hp
    cases phase with
    | processing => exact honly u hu
    | closed =>
      simp only [Settled, Sole, ha] at hs
      exact hs u hp.lt hu
    | done => exact absurd rfl hd
  exact hne (by rw [ha, hu])

/-- One step: the table stays in order unless the process is gone, and only a key that is emplaced
too early can do that. -/
theorem Table.moves {s t : Server} {a : Action} {b : Observed} (h : Table s)
    (hterm : s.terminated = false) (hm : s.Moves a b t) :
    (t.terminated = false → Table t) ∧ (Settled a s → b.InOrder ∧ t.terminated = false) := by
  cases hm with
  | running ha =>
    have hu : s.Unlocked := by simp [Server.Unlocked, ha]
    refine ⟨fun _ => h.idle hu ?_, fun _ => ⟨trivial, hterm⟩⟩
    split_ifs <;> simp
  | refused ha =>
    have hu : s.Unlocked := by simp [Server.Unlocked, ha]
    exact ⟨fun _ => h.idle hu (by simp), fun _ => ⟨trivial, hterm⟩⟩
  | accept ha hsocket hfd =>
    have hu : s.Unlocked := by simp [Server.Unlocked, ha]
    exact ⟨fun _ => h.accept hu hfd, fun _ => ⟨trivial, hterm⟩⟩
  | lock ha =>
    refine ⟨fun _ => h.lock ha, fun _ => ⟨trivial, ?_⟩⟩
    unfold Server.lockAcceptor
    split_ifs <;> exact hterm
  | @emplace fd u ha =>
    simp only [Server.emplace]
    cases hl : s.workers.lookup fd with
    | none => exact ⟨fun _ => h.emplace ha (Table.absent_of_lookup hl), fun _ => ⟨rfl, hterm⟩⟩
    | some v =>
      refine ⟨by simp, fun hs => ?_⟩
      exact absurd (Table.mem_of_lookup hl) (h.absent ha hs v)
  | close ht => exact ⟨fun _ => h.close ht, fun _ => ⟨trivial, hterm⟩⟩
  | @cleanup fd u ht hu =>
    have hl := h.lookup ((h.entry fd u).mpr ⟨⟨.closed, ht, by decide⟩, hu fd u⟩)
    simp only [Server.cleanup, hl]
    exact ⟨fun _ => h.cleanup ht hu, fun _ => ⟨rfl, hterm⟩⟩
  | stop hm => exact ⟨fun _ => ⟨h.entry, h.keys, h.opened, h.distinct, h.accepted, h.started⟩,
      fun _ => ⟨trivial, hterm⟩⟩
  | shutdown hm => exact ⟨fun _ => ⟨h.entry, h.keys, h.opened, h.distinct, h.accepted, h.started⟩,
      fun _ => ⟨trivial, hterm⟩⟩
  | shutdownWorkers hm =>
    exact ⟨fun _ => ⟨h.entry, h.keys, h.opened, h.distinct, h.accepted, h.started⟩,
      fun _ => ⟨trivial, hterm⟩⟩
  | joinWorkers hm hu =>
    exact ⟨fun _ => ⟨h.entry, h.keys, h.opened, h.distinct, h.accepted, h.started⟩,
      fun _ => ⟨trivial, hterm⟩⟩
  | joinThread ha hm =>
    exact ⟨fun _ => ⟨h.entry, h.keys, h.opened, h.distinct, h.accepted, h.started⟩,
      fun _ => ⟨trivial, hterm⟩⟩

/-- A connection thread closes its descriptor before it removes its entry, so the kernel may hand the
number out again in between. As long as the acceptor never gets to emplace it that early, every
emplaced key is new and every thread cleans up its own entry. -/
theorem workers_in_order (maxConnections : Int) (actions : List Action) (bs : List Observed)
    (s : Server) (hs : AllSteps Server.step Settled actions (.start maxConnections))
    (hr : run Server.step actions (.start maxConnections) = some (bs, s)) :
    (∀ b ∈ bs, b.InOrder) ∧ s.terminated = false := by
  obtain ⟨⟨-, hterm⟩, hbs⟩ := run_outputs Server.step Settled
    (fun s => Table s ∧ s.terminated = false) Observed.InOrder
    (fun a s b t hi hsettled hstep => by
      obtain ⟨hterm, hm⟩ := Server.moves_of_step hstep
      obtain ⟨htable, horder⟩ := hi.1.moves hterm hm
      obtain ⟨hb, ht⟩ := horder hsettled
      exact ⟨⟨htable ht, ht⟩, hb⟩)
    actions _ s bs ⟨Table.start maxConnections, rfl⟩ hs hr
  exact ⟨hbs, hterm⟩

/-- Descriptor 5 is used twice, the second time after the first thread has cleaned up. -/
theorem workers_in_order_reuse :
    let actions : List Action := [.running, .accept (some 5), .lock, .emplace, .running, .close 0,
      .accept (some 5), .cleanup 0, .lock, .emplace, .close 1, .cleanup 1]
    ∃ bs s, run Server.step actions (.start 7) = some (bs, s) ∧
      bs = [.nothing, .nothing, .nothing, .emplaced false, .nothing, .nothing, .nothing,
        .cleaned 0 (some 0), .nothing, .emplaced false, .nothing, .cleaned 1 (some 1)] ∧
      (∀ b ∈ bs, b.InOrder) ∧ s.terminated = false := by
  intro actions
  exact ⟨_, _, rfl, rfl, workers_in_order 7 actions _ _ (by decide) rfl⟩

/-- Descriptor 5 is closed, accepted again and emplaced before the entry of the first thread is
gone: the new thread is destroyed while joinable. -/
theorem workers_emplaced_twice :
    ∃ bs s, run Server.step [.running, .accept (some 5), .lock, .emplace, .running, .close 0,
        .accept (some 5), .lock, .emplace] (.start 7) = some (bs, s) ∧
      .emplaced true ∈ bs ∧ s.terminated = true :=
  ⟨_, _, rfl, by decide, rfl⟩

/-- `OnRun` is between its `accept` and the thread it starts for the descriptor. -/
def Acceptor.inHand : Acceptor → Bool
  | accepted _ => true
  | _ => false

/-- When `Join` finds the table empty, `OnRun` has no accepted descriptor in hand. -/
def HandEmpty : Action → Server → Prop
  | .joinWorkers, s => s.workers = [] → s.acceptor.inHand = false
  | _, _ => True

instance : ∀ a s, Decidable (HandEmpty a s)
  | .joinWorkers, s => inferInstanceAs (Decidable (s.workers = [] → s.acceptor.inHand = false))
  | .running, _ | .accept _, _ | .lock, _ | .emplace, _ | .close _, _ | .cleanup _, _ | .stop, _
  | .shutdown, _ | .shutdownWorkers, _ | .joinThread, _ => inferInstanceAs (Decidable True)

/-- `Join` has seen the table empty. -/
def Main.joined (m : Main) : Prop := m = .joining ∨ m = .returned

/-- What `Stop` and `Join` rely on: nothing is accepted from a socket that was shut down, and nobody
adds to the table once `Join` has seen it empty. -/
structure Winding (s : Server) : Prop where
  socket : s.main = .shutdown ∨ s.main = .stopped ∨ s.main.joined → s.serverSocket = false
  quiet : s.main.joined → s.workers = [] ∧ s.acceptor.inHand = false ∧ s.Unlocked

theorem Winding.moves {s t : Server} {a : Action} {b : Observed} (h : Winding s) (hm : s.Moves a b t)
    (hh : HandEmpty a s) : Winding t := by
  cases hm with
  | running ha =>
    refine ⟨h.socket, fun hj => ⟨(h.quiet hj).1, ?_, ?_⟩⟩
    · dsimp only
      split_ifs <;> rfl
    · intro fd t
      dsimp only
      split_ifs <;> simp
  | refused ha => exact ⟨h.socket, fun hj => ⟨(h.quiet hj).1, rfl, by simp [Server.Unlocked]⟩⟩
  | accept ha hsocket hfd =>
    refine ⟨h.socket, fun hj => ?_⟩
    have hclosed := h.socket (.inr (.inr hj))
    simp [hsocket] at hclosed
  | lock ha =>
    have hno : ¬ s.main.joined := by
      intro hj
      simpa [ha, Acceptor.inHand] using (h.quiet hj).2.1
    unfold Server.lockAcceptor
    split_ifs
    · exact ⟨h.socket, fun hj => absurd hj hno⟩
    · exact ⟨h.socket, fun hj => absurd hj hno⟩
  | @emplace fd u ha =>
    have hno : ¬ s.main.joined := fun hj => (h.quiet hj).2.2 fd u ha
    unfold Server.emplace
    split_ifs
    · exact ⟨h.socket, fun hj => absurd hj hno⟩
    · exact ⟨h.socket, fun hj => absurd hj hno⟩
  | close ht => exact ⟨h.socket, h.quiet⟩
  | cleanup ht hu =>
    unfold Server.cleanup
    split
    · exact ⟨h.socket, h.quiet⟩
    · exact ⟨h.socket, fun hj => ⟨by simp [(h.quiet hj).1], (h.quiet hj).2⟩⟩
  | stop hm => exact ⟨by simp [Main.joined], by simp [Main.joined]⟩
  | shutdown hm => exact ⟨by simp, by simp [Main.joined]⟩
  | shutdownWorkers hm => exact ⟨fun _ => h.socket (.inl hm), by simp [Main.joined]⟩
  | joinWorkers hm hu =>
    refine ⟨fun _ => h.socket (.inr (.inl hm)), ?_⟩
    intro hj
    by_cases hw : s.workers = []
    · exact ⟨hw, hh hw, hu⟩
    · simp [hw, Main.joined] at hj
  | joinThread ha hm =>
    have hj : s.main.joined := .inl hm
    exact ⟨fun _ => h.socket (.inr (.inr hj)), fun _ => h.quiet hj⟩

/-- Nothing is emplaced once `Join` has seen the table empty. -/
theorem Winding.settled {s t : Server} {a : Action} {b : Observed} (h : Winding s)
    (hm : s.Moves a b t) (hj : t.main.joined) : Settled a s := by
  cases hm with
  | @emplace fd u ha =>
    have hj : s.main.joined := by
      unfold Server.emplace at hj
      split_ifs at hj <;> exact hj
    exact absurd ha ((h.quiet hj).2.2 fd u)
  | _ => trivial

/-- Where the table is in order and empty and nothing is being emplaced, all threads are through. -/
theorem Table.all_done {s : Server} (h : Table s) (hw : s.workers = []) (hu : s.Unlocked) :
    ∀ th ∈ s.threads, th.phase = .done := by
  intro th hm
  by_contra hd
  obtain ⟨t, ht⟩ := List.mem_iff_getElem?.mp hm
  have hmem := (h.entry th.clientSocket t).mpr ⟨⟨th.phase, ht, hd⟩, hu _ _⟩
  simp [hw] at hmem

/-- `Join` looks at the table before it waits for the acceptor. Its return means that all connection
threads are through if the acceptor had no descriptor in hand at that look. -/
theorem join_waits (maxConnections : Int) (actions : List Action) (bs : List Observed) (s : Server)
    (hs : AllSteps Server.step HandEmpty actions (.start maxConnections))
    (hr : run Server.step actions (.start maxConnections) = some (bs, s))
    (hj : s.main = .returned) :
    s.workers = [] ∧ ∀ th ∈ s.threads, th.phase = .done := by
  obtain ⟨htable, hw, hterm⟩ := run_invariant Server.step HandEmpty
    (fun s => (s.terminated = false → Table s) ∧ Winding s ∧ (s.main.joined → s.terminated = false))
    (fun a s b t hi hh hstep => by
      obtain ⟨hterm, hm⟩ := Server.moves_of_step hstep
      obtain ⟨htable, hsettled⟩ := (hi.1 hterm).moves hterm hm
      exact ⟨htable, hi.2.1.moves hm hh, fun hj => (hsettled (hi.2.1.settled hm hj)).2⟩)
    actions _ s bs
    ⟨fun _ => Table.start maxConnections,
      ⟨by simp [Server.start, Main.joined], by simp [Server.start, Main.joined]⟩, fun _ => rfl⟩ hs hr
  obtain ⟨hempty, -, hu⟩ := hw.quiet (.inr hj)
  exact ⟨hempty, (htable (hterm (.inr hj))).all_done hempty hu⟩

/-- One connection is served and closed, the server is stopped and joined. -/
theorem join_waits_one :
    let actions : List Action := [.running, .accept (some 5), .lock, .emplace, .running, .stop,
      .shutdown, .accept none, .shutdownWorkers, .joinWorkers, .close 0, .cleanup 0, .joinWorkers,
      .running, .joinThread]
    ∃ bs s, run Server.step actions (.start 7) = some (bs, s) ∧ s.main = .returned ∧
      s.threads.length = 1 ∧ s.workers = [] ∧ ∀ th ∈ s.threads, th.phase = .done := by
  intro actions
  exact ⟨_, _, rfl, rfl, rfl, join_waits 7 actions _ _ (by decide) rfl rfl⟩

/-- `Join` sees the table empty while the acceptor has descriptor 5 in hand; the thread for it is
there when `Join` has returned. -/
theorem join_returns_early :
    ∃ bs s, run Server.step [.running, .accept (some 5), .stop, .shutdown, .shutdownWorkers,
        .joinWorkers, .lock, .emplace, .running, .joinThread] (.start 7) = some (bs, s) ∧
      s.main = .returned ∧ s.terminated = false ∧ s.workers = [(5, 0)] ∧
      s.threads = [⟨5, .processing⟩] :=
  ⟨_, _, rfl, rfl, rfl, rfl, rfl⟩

end Sysprog.Network.MTblocking
