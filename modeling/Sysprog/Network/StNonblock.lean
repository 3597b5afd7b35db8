import Sysprog.Network.Server

namespace Sysprog.Network.STnonblock

/-- An event of the epoll set: the wake-up of `Stop`, the server socket, or a connection. -/
inductive Event where
  | eventFd
  | serverSocket
  | connection (pc : Nat)
  deriving DecidableEq

/-- What `epoll_wait` reports; a connection by its descriptor. -/
inductive Ready where
  | eventFd
  | serverSocket
  | descriptor (fd : Nat)
  deriving DecidableEq

/-- Where `OnRun` is, with the events of its `mod_list` still to be taken. -/
inductive OnRun where
  /-- In `epoll_wait`. -/
  | waiting
  /-- Before the next event; at the `while` when there is none. -/
  | handling (modList : List Event)
  /-- In the loop of `OnNewConnection`. -/
  | accepting (modList : List Event)
  /-- The handlers have returned: whether the connection is alive and has another mask. -/
  | served (pc : Nat) (alive changed : Bool) (modList : List Event)
  | stopped
  deriving DecidableEq

/-- Where `Stop` is. The iterator of its loop is an entry of `_connections`, by its key. -/
inductive Stop where
  | before
  /-- `_event_fd` is written. -/
  | begun
  /-- In front of the body for this entry. -/
  | standing (fd : Nat)
  /-- Behind the body, still on this entry. -/
  | passed (fd : Nat)
  /-- At the end of the map. -/
  | swept
  /-- The entry has been erased: whatever comes next uses a node that is freed. -/
  | dangling
  | after
  deriving DecidableEq

namespace Stop

/-- The entry the iterator is on. -/
def entry : Stop → List Nat
  | standing fd | passed fd => [fd]
  | before | begun | swept | dangling | after => []

/-- The entry of a key is erased. -/
def erase (fd : Nat) (stop : Stop) : Stop := if fd ∈ stop.entry then dangling else stop

/-- `begin()` and `++`: the entry of the key found, or `end()`. -/
def of : Option Nat → Stop
  | some fd => standing fd
  | none => swept

end Stop

structure Server where
  /-- Identity of the next `Connection`. -/
  fresh : Nat
  socket : Nat → Nat
  /-- The descriptors that are open. -/
  opened : Nat → Bool
  /-- The epoll set: `data.ptr` by descriptor. -/
  epoll : Nat → Option Nat
  /-- `_connections`; a pointer is null once `Stop` has swapped it out. -/
  connections : List (Nat × Option Nat)
  run : Bool
  onRun : OnRun
  /-- `_event_fd` has been written. -/
  woken : Bool
  stop : Stop
  /-- History: what was put into `_connections`, what was destroyed, and what was destroyed already
  when one of its methods was called. -/
  inserted : List Nat
  destroyed : List Nat
  misused : List Nat

/-- One step of `OnRun` or of `Stop`, with what the kernel makes of it. -/
inductive Step where
  /-- `epoll_wait` returns. -/
  | wait (ready : List Ready)
  /-- `while (run)`. -/
  | loop
  /-- The event of `_event_fd`. -/
  | wakeup
  /-- The event of the server socket. -/
  | onNewConnection
  /-- One connection is accepted and registered. -/
  | accept (infd : Nat) (ok : Bool)
  /-- `accept4` returns -1. -/
  | noMore
  /-- The handlers of an event, and what they leave behind. -/
  | dispatch (alive changed : Bool)
  /-- A dead connection is closed. -/
  | close (ok : Bool)
  /-- The mask of a live connection is changed. -/
  | change (ok : Bool)
  /-- The mask of a live connection is as it was. -/
  | keep
  | stop

namespace Server

/-- After `Start`. -/
def start : Server :=
  ⟨0, fun _ => 0, fun _ => false, fun _ => none, [], true, .handling [], false, .before, [], [], []⟩

/-- A method of a connection is called. -/
def call (s : Server) (pc : Nat) : Server :=
  { s with misused := if pc ∈ s.destroyed then s.misused ++ [pc] else s.misused }

/-- `~Connection`: the kernel drops a closed descriptor from the epoll set. -/
def destroy (s : Server) (pc : Nat) : Server := { s with
  opened := Function.update s.opened (s.socket pc) false
  epoll := Function.update s.epoll (s.socket pc) none
  destroyed := s.destroyed ++ [pc] }

/-- `~unique_ptr` of each pointer in turn. -/
def release (s : Server) (ps : List Nat) : Server := ps.foldl destroy s

/-- The pointer of the entry of a descriptor, if it has one. -/
def pointerAt (s : Server) (fd : Nat) : List Nat :=
  pointers (s.connections.filter fun e => e.1 = fd)

/-- `_connections` without the entry of a descriptor. -/
def without (s : Server) (fd : Nat) : List (Nat × Option Nat) :=
  s.connections.filter fun e => e.1 ≠ fd

/-- `_connections` with a null pointer in the entry of a descriptor. -/
def swapOut (s : Server) (fd : Nat) : List (Nat × Option Nat) :=
  s.connections.map fun e => if e.1 = fd then (e.1, none) else e

/-- `_connections.erase` of a descriptor, and what becomes of the iterator of `Stop`. -/
def erase (s : Server) (fd : Nat) : Server :=
  { s with connections := s.without fd, stop := s.stop.erase fd }

/-- The least key. -/
def first (s : Server) : Option Nat := (s.connections.map Prod.fst).min?

/-- The least key behind one. -/
def next (s : Server) (fd : Nat) : Option Nat :=
  ((s.connections.map Prod.fst).filter (fd < ·)).min?

/-- The event of a ready descriptor. -/
def event (s : Server) : Ready → Option Event
  | .eventFd => if s.woken then some .eventFd else none
  | .serverSocket => some .serverSocket
  | .descriptor fd => (s.epoll fd).map .connection

/-- A new `Connection` after `accept4`, its constructor and `Start`. -/
def created (s : Server) (infd : Nat) : Server := { s with
  fresh := s.fresh + 1
  socket := Function.update s.socket s.fresh infd
  opened := Function.update s.opened infd true }

/-- `EPOLL_CTL_ADD` and the insertion into `_connections`, which leaves a key that is there alone:
then the new pointer goes with the temporary pair. -/
def register (s : Server) (pc : Nat) : Server :=
  let s := { s with epoll := Function.update s.epoll (s.socket pc) (some pc) }
  if s.connections.any fun e => e.1 = s.socket pc then s.destroy pc
  else { s with
    connections := s.connections ++ [(s.socket pc, some pc)]
    inserted := s.inserted ++ [pc] }

/-- The branch for a dead connection: `EPOLL_CTL_DEL`, the swap out of the map, `erase`, `OnClose`,
and the end of the life of `tmp`. -/
def closeDead (s : Server) (pc : Nat) (ok : Bool) : Server :=
  let erased := { s with
    epoll := if ok then Function.update s.epoll (s.socket pc) none else s.epoll }.erase (s.socket pc)
  (erased.call pc).release (s.pointerAt (s.socket pc))

/-- The branch for a mask that could not be changed: `erase`, which destroys, `OnError` and `delete`. -/
def changeFailed (s : Server) (pc : Nat) : Server :=
  let erased := (s.erase (s.socket pc)).release (s.pointerAt (s.socket pc))
  (erased.call pc).destroy pc

/-- `none` when the thread is not at this step, or the kernel cannot answer so. -/
def step : Step → Server → Option (Unit × Server)
  | .loop, s =>
    match s.onRun with
    | .handling [] => some ((), { s with onRun := if s.run then .waiting else .stopped })
    | _ => none
  | .wait ready, s =>
    if s.onRun = .waiting ∧ ready.Nodup ∧ ready.length ≤ 64 then
      some ((), { s with onRun := .handling (ready.filterMap s.event) })
    else none
  | .wakeup, s =>
    match s.onRun with
    | .handling (.eventFd :: es) => some ((), { s with run := false, onRun := .handling es })
    | _ => none
  | .onNewConnection, s =>
    match s.onRun with
    | .handling (.serverSocket :: es) => some ((), { s with onRun := .accepting es })
    | _ => none
  | .accept infd ok, s =>
    match s.onRun with
    | .accepting es =>
      if s.opened infd then none
      else if ok then some ((), ((s.created infd).call s.fresh).register s.fresh)
      else some ((), { s with onRun := .handling es }.created infd |>.call s.fresh |>.destroy s.fresh)
    | _ => none
  | .noMore, s =>
    match s.onRun with
    | .accepting es => some ((), { s with onRun := .handling es })
    | _ => none
  | .dispatch alive changed, s =>
    match s.onRun with
    | .handling (.connection pc :: es) =>
      some ((), { s with onRun := .served pc alive changed es }.call pc)
    | _ => none
  | .close ok, s =>
    match s.onRun with
    | .served pc false _ es =>
      if ok ∧ s.epoll (s.socket pc) = none then none
      else some ((), { s with onRun := .handling es }.closeDead pc ok)
    | _ => none
  | .change ok, s =>
    match s.onRun with
    | .served pc true true es =>
      if ok then some ((), { s with onRun := .handling es }.call pc)
      else some ((), { s with onRun := .handling es }.changeFailed pc)
    | _ => none
  | .keep, s =>
    match s.onRun with
    | .served pc true false es => some ((), { s with onRun := .handling es }.call pc)
    | _ => none
  | .stop, s =>
    match s.stop with
    | .before => some ((), { s with woken := true, stop := .begun })
    | .begun => some ((), { s with stop := .of s.first })
    | .standing fd => some ((), { s with connections := s.swapOut fd, stop := .passed fd }.release
        (s.pointerAt fd))
    | .passed fd => some ((), { s with stop := .of (s.next fd) })
    | .swept => some ((), { s with connections := [], stop := .after }.release
        (pointers s.connections))
    | .dangling | .after => none

/-- What each step needs and does, spelled out. -/
inductive Moves (s : Server) : Step → Server → Prop where
  | loop : s.onRun = .handling [] →
    Moves s .loop { s with onRun := if s.run then .waiting else .stopped }
  | wait {ready : List Ready} : s.onRun = .waiting → ready.Nodup →
    Moves s (.wait ready) { s with onRun := .handling (ready.filterMap s.event) }
  | wakeup {es : List Event} : s.onRun = .handling (.eventFd :: es) →
    Moves s .wakeup { s with run := false, onRun := .handling es }
  | onNewConnection {es : List Event} : s.onRun = .handling (.serverSocket :: es) →
    Moves s .onNewConnection { s with onRun := .accepting es }
  | accept {infd : Nat} {es : List Event} : s.onRun = .accepting es →
    Moves s (.accept infd true) (((s.created infd).call s.fresh).register s.fresh)
  | refused {infd : Nat} {es : List Event} : s.onRun = .accepting es →
    Moves s (.accept infd false)
      ((({ s with onRun := .handling es }.created infd).call s.fresh).destroy s.fresh)
  | noMore {es : List Event} : s.onRun = .accepting es →
    Moves s .noMore { s with onRun := .handling es }
  | dispatch {alive changed : Bool} {pc : Nat} {es : List Event} :
    s.onRun = .handling (.connection pc :: es) →
    Moves s (.dispatch alive changed) ({ s with onRun := .served pc alive changed es }.call pc)
  | close {ok changed : Bool} {pc : Nat} {es : List Event} : s.onRun = .served pc false changed es →
    Moves s (.close ok) ({ s with onRun := .handling es }.closeDead pc ok)
  | changed {pc : Nat} {es : List Event} : s.onRun = .served pc true true es →
    Moves s (.change true) ({ s with onRun := .handling es }.call pc)
  | changeFailed {pc : Nat} {es : List Event} : s.onRun = .served pc true true es →
    Moves s (.change false) ({ s with onRun := .handling es }.changeFailed pc)
  | keep {pc : Nat} {es : List Event} : s.onRun = .served pc true false es →
    Moves s .keep ({ s with onRun := .handling es }.call pc)
  | stop : s.stop = .before → Moves s .stop { s with woken := true, stop := .begun }
  | iterate {fd : Option Nat} : Moves s .stop { s with stop := .of fd }
  | sweep {fd : Nat} : s.stop = .standing fd →
    Moves s .stop ({ s with connections := s.swapOut fd, stop := .passed fd }.release
      (s.pointerAt fd))
  | clear : s.stop = .swept →
    Moves s .stop ({ s with connections := [], stop := .after }.release (pointers s.connections))

theorem moves_of_step {a : Step} {s t : Server} {u : Unit} (h : step a s = some (u, t)) :
    Moves s a t := by
  cases a with
  | loop =>
    simp only [step] at h
    split at h <;> cases h
    exact .loop ‹_›
  | wait ready =>
    obtain ⟨hc, hs⟩ := Option.ite_none_right_eq_some.mp h
    cases hs
    exact .wait hc.1 hc.2.1
  | wakeup =>
    simp only [step] at h
    split at h <;> cases h
    exact .wakeup ‹_›
  | onNewConnection =>
    simp only [step] at h
    split at h <;> cases h
    exact .onNewConnection ‹_›
  | accept infd ok =>
    simp only [step] at h
    split at h
    next es ho =>
      obtain ⟨-, hs⟩ := Option.ite_none_left_eq_some.mp h
      cases ok with
      | true =>
        cases hs
        exact .accept ho
      | false =>
        cases hs
        exact .refused ho
    · cases h
  | noMore =>
    simp only [step] at h
    split at h <;> cases h
    exact .noMore ‹_›
  | dispatch alive changed =>
    simp only [step] at h
    split at h <;> cases h
    exact .dispatch ‹_›
  | close ok =>
    simp only [step] at h
    split at h
    next pc changed es ho =>
      obtain ⟨-, hs⟩ := Option.ite_none_left_eq_some.mp h
      cases hs
      exact .close ho
    · cases h
  | change ok =>
    simp only [step] at h
    split at h
    next pc es ho =>
      cases ok with
      | true =>
        cases h
        exact .changed ho
      | false =>
        cases h
        exact .changeFailed ho
    · cases h
  | keep =>
    simp only [step] at h
    split at h <;> cases h
    exact .keep ‹_›
  | stop =>
    simp only [step] at h
    split at h <;> cases h
    · exact .stop ‹_›
    · exact .iterate
    · exact .sweep ‹_›
    · exact .iterate
    · exact .clear ‹_›

end Server

end Sysprog.Network.STnonblock
