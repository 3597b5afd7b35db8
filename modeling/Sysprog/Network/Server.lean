import Sysprog.Lib.Run

namespace Sysprog.Network

/-- What happens to a `Connection` object, named by its identity. -/
inductive Effect where
  /-- A worker passes it an event. -/
  | dispatch (pconn : Nat)
  /-- `delete` through a raw pointer. -/
  | deleted (pconn : Nat)
  /-- Destruction by the `unique_ptr` that owns it. -/
  | released (pconn : Nat)
  deriving DecidableEq

/-- An entry of the epoll set: `data.ptr`, and whether the one shot is still to come. -/
structure Registration where
  pconn : Nat
  armed : Bool
  deriving DecidableEq

/-- Where an acceptor is with the `Connection` it has just made. -/
inductive Acceptor where
  | idle
  /-- Before `EPOLL_CTL_ADD`. -/
  | created (pc : Nat)
  /-- Before the insertion into `_connections`. -/
  | added (pc : Nat)
  /-- The addition has failed: before `delete pc`. -/
  | refused (pc : Nat)
  deriving DecidableEq

/-- Where a worker is in `OnRun`, with the events of its `mod_list` still to be taken. -/
inductive Worker where
  /-- In `epoll_wait`. -/
  | waiting
  /-- Before the next event; at the `while` when there is none. -/
  | handling (modList : List Nat)
  /-- The handlers have returned: at `isAlive`. -/
  | served (pconn : Nat) (alive : Bool) (modList : List Nat)
  /-- Before `delete pconn`. -/
  | closing (pconn : Nat) (modList : List Nat)
  | stopped
  deriving DecidableEq

/-- Progress of `ServerImpl::Stop` over the map of connections. -/
inductive Stop where
  | before
  /-- In the loop: what is left are the descriptors from `next` on. -/
  | sweeping (next : Nat)
  | after
  deriving DecidableEq

/-- The `MTnonblock` server with `m` acceptors and `n` workers. -/
structure Server (m n : Nat) where
  /-- Identity of the next `Connection`. -/
  fresh : Nat
  socket : Nat → Nat
  /-- The descriptors that are open. -/
  opened : Nat → Bool
  /-- `_data_epoll_fd`, by descriptor. -/
  epoll : Nat → Option Registration
  /-- `_connections`; a pointer is null once `Stop` has swapped it out. -/
  connections : List (Nat × Option Nat)
  acceptors : Fin m → Acceptor
  isRunning : Bool
  workers : Fin n → Worker
  stop : Stop
  history : List Effect

/-- The pointers owned by a map of connections. -/
def pointers (connections : List (Nat × Option Nat)) : List Nat := connections.filterMap Prod.snd

namespace Server

variable {m n : Nat}

/-- After `Start`. -/
def start (m n : Nat) : Server m n :=
  ⟨0, fun _ => 0, fun _ => false, fun _ => none, [], fun _ => .idle, true, fun _ => .handling [],
    .before, []⟩

/-- One step of one thread, with what the kernel makes of it. -/
inductive Step (m n : Nat) where
  /-- `accept4` and `new Connection`. -/
  | accept (acceptor : Fin m) (infd : Nat)
  | add (acceptor : Fin m) (ok : Bool)
  | insert (acceptor : Fin m)
  | discard (acceptor : Fin m)
  /-- `while (isRunning)`. -/
  | loop (worker : Fin n)
  /-- `epoll_wait` returns the events of these descriptors. -/
  | wait (worker : Fin n) (ready : List Nat)
  /-- The handlers of the first event, and what they leave in `_connection_alive`. -/
  | dispatch (worker : Fin n) (alive : Bool)
  | rearm (worker : Fin n) (ok : Bool)
  | unregister (worker : Fin n) (ok : Bool)
  | delete (worker : Fin n)
  | stop

/-- `~Connection`: the kernel drops a closed descriptor from the epoll set. -/
def destroy (s : Server m n) (e : Effect) (pconn : Nat) : Server m n := { s with
  opened := Function.update s.opened (s.socket pconn) false
  epoll := Function.update s.epoll (s.socket pconn) none
  history := s.history ++ [e] }

/-- `~unique_ptr` of each pointer in turn. -/
def release : List Nat → Server m n → Server m n
  | [], s => s
  | p :: ps, s => release ps (s.destroy (.released p) p)

def setAcceptor (s : Server m n) (a : Fin m) (x : Acceptor) : Server m n :=
  { s with acceptors := Function.update s.acceptors a x }

def setWorker (s : Server m n) (i : Fin n) (x : Worker) : Server m n :=
  { s with workers := Function.update s.workers i x }

/-- The events of the ready descriptors. -/
def modList (s : Server m n) (ready : List Nat) : List Nat :=
  ready.filterMap fun fd => (s.epoll fd).map Registration.pconn

/-- `EPOLLONESHOT`: no further event until the descriptor is rearmed. -/
def disarm (s : Server m n) (ready : List Nat) : Nat → Option Registration := fun fd =>
  if fd ∈ ready then (s.epoll fd).map fun r => ⟨r.pconn, false⟩ else s.epoll fd

/-- The descriptor is already a key of the map. -/
def taken (s : Server m n) (fd : Nat) : Bool := s.connections.any fun e => e.1 = fd

/-- Where the iterator of `Stop` is: the least key from `next` on. -/
def iterator (s : Server m n) (next : Nat) : Option Nat :=
  ((s.connections.map Prod.fst).filter (next ≤ ·)).min?

/-- The pointer that the loop of `Stop` swaps out of an entry. -/
def tmp (s : Server m n) (fd : Nat) : List Nat := pointers (s.connections.filter fun e => e.1 = fd)

def swapOut (s : Server m n) (fd : Nat) : List (Nat × Option Nat) :=
  s.connections.map fun e => if e.1 = fd then (e.1, none) else e

/-- `none` when the thread is not at this step, or the kernel cannot answer so. -/
def step : Step m n → Server m n → Option (Unit × Server m n)
  | .accept a infd, s =>
    match s.acceptors a with
    | .idle =>
      if s.opened infd then none
      else some ((), { s.setAcceptor a (.created s.fresh) with
        fresh := s.fresh + 1
        socket := Function.update s.socket s.fresh infd
        opened := Function.update s.opened infd true })
    | _ => none
  | .add a ok, s =>
    match s.acceptors a with
    | .created pc =>
      if !ok then some ((), s.setAcceptor a (.refused pc))
      else if s.opened (s.socket pc) && (s.epoll (s.socket pc)).isNone then
        some ((), { s.setAcceptor a (.added pc) with
          epoll := Function.update s.epoll (s.socket pc) (some ⟨pc, true⟩) })
      else none
    | _ => none
  | .insert a, s =>
    match s.acceptors a with
    | .added pc =>
      -- a key that is taken keeps its entry: the new pointer goes with the temporary pair
      if s.taken (s.socket pc) then some ((), release [pc] (s.setAcceptor a .idle))
      else some ((), { s.setAcceptor a .idle with
        connections := s.connections ++ [(s.socket pc, some pc)] })
    | _ => none
  | .discard a, s =>
    match s.acceptors a with
    | .refused pc => some ((), (s.setAcceptor a .idle).destroy (.deleted pc) pc)
    | _ => none
  | .loop i, s =>
    match s.workers i with
    | .handling [] => some ((), s.setWorker i (if s.isRunning then .waiting else .stopped))
    | _ => none
  | .wait i ready, s =>
    match s.workers i with
    | .waiting =>
      if ready.Nodup ∧ ready.length ≤ 64 ∧
          ∀ fd ∈ ready, (s.epoll fd).map Registration.armed = some true then
        some ((), { s.setWorker i (.handling (s.modList ready)) with epoll := s.disarm ready })
      else none
    | _ => none
  | .dispatch i alive, s =>
    match s.workers i with
    | .handling (p :: ps) => some ((), { s.setWorker i (.served p alive ps) with
        history := s.history ++ [.dispatch p] })
    | _ => none
  | .rearm i ok, s =>
    match s.workers i with
    | .served p true ps =>
      if !ok then some ((), s.setWorker i (.closing p ps))
      else if (s.epoll (s.socket p)).isSome then
        some ((), { s.setWorker i (.handling ps) with
          epoll := Function.update s.epoll (s.socket p) (some ⟨p, true⟩) })
      else none
    | _ => none
  | .unregister i ok, s =>
    match s.workers i with
    | .served p false ps =>
      if !ok then some ((), s.setWorker i (.closing p ps))
      else if (s.epoll (s.socket p)).isSome then
        some ((), { s.setWorker i (.closing p ps) with
          epoll := Function.update s.epoll (s.socket p) none })
      else none
    | _ => none
  | .delete i, s =>
    match s.workers i with
    | .closing p ps => some ((), (s.setWorker i (.handling ps)).destroy (.deleted p) p)
    | _ => none
  | .stop, s =>
    match s.stop with
    | .before => some ((), { s with isRunning := false, stop := .sweeping 0 })
    | .sweeping next =>
      match s.iterator next with
      | some fd => some ((), release (s.tmp fd) { s with
          connections := s.swapOut fd
          stop := .sweeping (fd + 1) })
      | none => some ((), release (pointers s.connections) { s with
          connections := []
          stop := .after })
    | .after => none

/-- What each step needs and does, spelled out. -/
inductive Moves (s : Server m n) : Step m n → Server m n → Prop where
  | accept {a : Fin m} {infd : Nat} : s.acceptors a = .idle → s.opened infd = false →
    Moves s (.accept a infd) { s.setAcceptor a (.created s.fresh) with
      fresh := s.fresh + 1
      socket := Function.update s.socket s.fresh infd
      opened := Function.update s.opened infd true }
  | refused {a : Fin m} {pc : Nat} : s.acceptors a = .created pc →
    Moves s (.add a false) (s.setAcceptor a (.refused pc))
  | add {a : Fin m} {pc : Nat} : s.acceptors a = .created pc →
    Moves s (.add a true) { s.setAcceptor a (.added pc) with
      epoll := Function.update s.epoll (s.socket pc) (some ⟨pc, true⟩) }
  | notInserted {a : Fin m} {pc : Nat} : s.acceptors a = .added pc → s.taken (s.socket pc) = true →
    Moves s (.insert a) (release [pc] (s.setAcceptor a .idle))
  | insert {a : Fin m} {pc : Nat} : s.acceptors a = .added pc →
    Moves s (.insert a) { s.setAcceptor a .idle with
      connections := s.connections ++ [(s.socket pc, some pc)] }
  | discard {a : Fin m} {pc : Nat} : s.acceptors a = .refused pc →
    Moves s (.discard a) ((s.setAcceptor a .idle).destroy (.deleted pc) pc)
  | loop {i : Fin n} : s.workers i = .handling [] →
    Moves s (.loop i) (s.setWorker i (if s.isRunning then .waiting else .stopped))
  | wait {i : Fin n} {ready : List Nat} : s.workers i = .waiting → ready.Nodup →
    (∀ fd ∈ ready, (s.epoll fd).map Registration.armed = some true) →
    Moves s (.wait i ready)
      { s.setWorker i (.handling (s.modList ready)) with epoll := s.disarm ready }
  | dispatch {i : Fin n} {alive : Bool} {p : Nat} {ps : List Nat} : s.workers i = .handling (p :: ps) →
    Moves s (.dispatch i alive) { s.setWorker i (.served p alive ps) with
      history := s.history ++ [.dispatch p] }
  | rearmFailed {i : Fin n} {p : Nat} {ps : List Nat} : s.workers i = .served p true ps →
    Moves s (.rearm i false) (s.setWorker i (.closing p ps))
  | rearm {i : Fin n} {p : Nat} {ps : List Nat} : s.workers i = .served p true ps →
    Moves s (.rearm i true) { s.setWorker i (.handling ps) with
      epoll := Function.update s.epoll (s.socket p) (some ⟨p, true⟩) }
  | unregisterFailed {i : Fin n} {p : Nat} {ps : List Nat} : s.workers i = .served p false ps →
    Moves s (.unregister i false) (s.setWorker i (.closing p ps))
  | unregister {i : Fin n} {p : Nat} {ps : List Nat} : s.workers i = .served p false ps →
    Moves s (.unregister i true) { s.setWorker i (.closing p ps) with
      epoll := Function.update s.epoll (s.socket p) none }
  | delete {i : Fin n} {p : Nat} {ps : List Nat} : s.workers i = .closing p ps →
    Moves s (.delete i) ((s.setWorker i (.handling ps)).destroy (.deleted p) p)
  | stop : s.stop = .before → Moves s .stop { s with isRunning := false, stop := .sweeping 0 }
  | sweep {next fd : Nat} : s.stop = .sweeping next → s.iterator next = some fd →
    Moves s .stop (release (s.tmp fd) { s with
      connections := s.swapOut fd
      stop := .sweeping (fd + 1) })
  | clear {next : Nat} : s.stop = .sweeping next → s.iterator next = none →
    Moves s .stop (release (pointers s.connections) { s with
      connections := []
      stop := .after })

theorem moves_of_step {a : Step m n} {s t : Server m n} {u : Unit} (h : step a s = some (u, t)) :
    Moves s a t := by
  cases a with
  | accept a infd =>
    simp only [step] at h
    split at h
    next ha =>
      cases hfd : s.opened infd with
      | true => simp [hfd] at h
      | false =>
        simp only [hfd] at h
        cases h
        exact .accept ha hfd
    · cases h
  | add a ok =>
    simp only [step] at h
    split at h
    next pc ha =>
      cases ok with
      | false =>
        cases h
        exact .refused ha
      | true =>
        simp only [Bool.not_true, Bool.false_eq_true, if_false] at h
        split at h <;> cases h
        exact .add ha
    · cases h
  | insert a =>
    simp only [step] at h
    split at h
    next pc ha =>
      cases ht : s.taken (s.socket pc) with
      | true =>
        simp only [ht, if_true] at h
        cases h
        exact .notInserted ha ht
      | false =>
        simp only [ht, Bool.false_eq_true, if_false] at h
        cases h
        exact .insert ha
    · cases h
  | discard a =>
    simp only [step] at h
    split at h <;> cases h
    exact .discard ‹_›
  | loop i =>
    simp only [step] at h
    split at h <;> cases h
    exact .loop ‹_›
  | wait i ready =>
    simp only [step] at h
    split at h
    next hi =>
      obtain ⟨hr, hs⟩ := Option.ite_none_right_eq_some.mp h
      cases hs
      exact .wait hi hr.1 hr.2.2
    · cases h
  | dispatch i alive =>
    simp only [step] at h
    split at h <;> cases h
    exact .dispatch ‹_›
  | rearm i ok =>
    simp only [step] at h
    split at h
    next p ps hi =>
      cases ok with
      | false =>
        cases h
        exact .rearmFailed hi
      | true =>
        simp only [Bool.not_true, Bool.false_eq_true, if_false] at h
        split at h <;> cases h
        exact .rearm hi
    · cases h
  | unregister i ok =>
    simp only [step] at h
    split at h
    next p ps hi =>
      cases ok with
      | false =>
        cases h
        exact .unregisterFailed hi
      | true =>
        simp only [Bool.not_true, Bool.false_eq_true, if_false] at h
        split at h <;> cases h
        exact .unregister hi
    · cases h
  | delete i =>
    simp only [step] at h
    split at h <;> cases h
    exact .delete ‹_›
  | stop =>
    simp only [step] at h
    split at h
    next hst =>
      cases h
      exact .stop hst
    next next hst =>
      split at h <;> cases h
      · exact .sweep hst ‹_›
      · exact .clear hst ‹_›
    · cases h

end Server

end Sysprog.Network
