import Sysprog.Network.Clients
import Sysprog.Network.Isolation

namespace Sysprog.Network

open Execute Protocol

variable {σ τ ω : Type}

section

variable {S : Storage σ} {T : Storage τ} {R : σ → τ → Prop} {epollerr : Bool}

/-- Only the storages tell the two connections apart. -/
structure Connection.Mirrors (R : σ → τ → Prop) (c : Connection σ) (d : Connection τ) : Prop where
  conn : Conn.Matches R Eq c.conn d.conn
  alive : c.alive = d.alive
  pending : c.pending = d.pending
  accepted : c.accepted = d.accepted

theorem Connection.Mirrors.step {c : Connection σ} {d : Connection τ} (h : Mirrors R c d)
    (hS : Simulates S T R) (op : Op) :
    Option.Rel (fun x y => Mirrors R x.2 y.2) (Connection.step S epollerr op c)
      (Connection.step T epollerr op d) := by
  cases op with
  | doRead chunks last =>
    obtain ⟨h1, ha, hp⟩ := doRead_matches (.of_simulates hS)
      (FrontEnd.matches_self (nonBlocking epollerr)) h.conn h.alive h.pending chunks last
    exact .some ⟨h1, ha, hp, h.accepted⟩
  | doWrite n =>
    refine .some ⟨?_, ?_, ?_, ?_⟩
    · rw [doWrite_conn, doWrite_conn]
      exact h.conn
    all_goals
      simp only [doWrite, h.pending, h.accepted]
      split_ifs
      all_goals first
        | rfl
        | exact h.alive

/-- The same for servers: each connection, the storage that is theirs, and the history. -/
structure Clients.Mirrors (R : σ → τ → Prop) (x : Clients σ) (y : Clients τ) : Prop where
  connections : ∀ i, (x.connections i).Mirrors (fun _ _ => True) (y.connections i)
  storage : R x.storage y.storage
  history : x.history = y.history

theorem Clients.Mirrors.step {x : Clients σ} {y : Clients τ} (h : Mirrors R x y)
    (hS : Simulates S T R) (a : Nat × Connection.Op) :
    Option.Rel (fun x y => x.1 = y.1 ∧ Mirrors R x.2 y.2) (Clients.step S epollerr a x)
      (Clients.step T epollerr a y) := by
  obtain ⟨i, op⟩ := a
  have hi := h.connections i
  have hload : (x.load i).Mirrors R (y.load i) := by
    obtain ⟨t, es, he, -, hm⟩ := hi.conn
    refine ⟨⟨y.storage, es, ?_, h.storage, hm⟩, hi.alive, hi.pending, hi.accepted⟩
    simp only [load, he]
    rfl
  have hstep : Option.Rel _ (Connection.step S epollerr op (x.load i))
      (Connection.step T epollerr op (y.load i)) := hload.step hS op
  simp only [Clients.step]
  generalize Connection.step S epollerr op (x.load i) = u at hstep ⊢
  generalize Connection.step T epollerr op (y.load i) = v at hstep ⊢
  cases hstep with
  | none => exact .none
  | @some u v hm =>
    refine .some ⟨trivial, ?_, hm.conn.storage, ?_⟩
    · intro j
      by_cases hj : j = i
      · subst hj
        simp only [save, Function.update_self]
        obtain ⟨t, es, he, -, hes⟩ := hm.conn
        exact ⟨⟨t, es, he, trivial, hes⟩, hm.alive, hm.pending, hm.accepted⟩
      · simpa only [save, Function.update_of_ne hj] using h.connections j
    · simp only [save, h.history, hi.conn.executed_eq, hm.conn.executed_eq]

variable {c : Conn σ} {d : Conn τ}

theorem Conn.Matches.closed {E : Bytes → Bytes → Prop} (h : Conn.Matches R E c d)
    (last : Option Bytes) : Conn.Matches R E (c.closed last) (d.closed last) := by
  cases last with
  | none => exact h
  | some strerror =>
    simp only [Conn.closed, h.fault]
    split_ifs
    · exact h
    · exact h.setFault _

/-- A client of STblocking gets the same. -/
theorem Conn.Matches.serveClient (h : Conn.Matches R Eq c d) (hS : Simulates S T R)
    (client : Client) :
    (c.serveClient S client).1 = (d.serveClient T client).1 ∧
    Conn.Matches R Eq (c.serveClient S client).2 (d.serveClient T client).2 := by
  obtain ⟨h1, ho⟩ := readLoop (.of_simulates hS) (FrontEnd.matches_self (stBlocking client.send)) h
    (rfl : (⟨[], 0⟩ : Socket) = ⟨[], 0⟩) client.chunks
  have h2 := h1.closed client.last
  constructor
  · simp only [Conn.serveClient, ho, h2.executed_eq, h2.fault]
  · obtain ⟨t, es, he, hR, -⟩ := h2
    refine ⟨t, [], ?_, hR, .nil⟩
    simp only [Conn.serveClient, he]
    rfl

theorem Conn.Matches.onRun (h : Conn.Matches R Eq c d) (hS : Simulates S T R)
    (clients : List Client) :
    (c.onRun S clients).1 = (d.onRun T clients).1 ∧
    Conn.Matches R Eq (c.onRun S clients).2 (d.onRun T clients).2 := by
  induction clients generalizing c d with
  | nil => exact ⟨rfl, h⟩
  | cons client clients ih =>
    obtain ⟨ho, h1⟩ := h.serveClient hS client
    obtain ⟨hos, h2⟩ := ih h1
    exact ⟨by simp only [Conn.onRun, ho, hos], h2⟩

end

/-- No client of any of the servers can tell `SimpleLRU` from the cache without pointers: every byte
that is sent, every result, every exception and the fate of every connection is the same, and the
storages stay related or break down together. -/
theorem pointers_forgotten (maxSize : UInt64) (argRemains : Nat → Nat) (negative : Nat → Bool) :
    let pointers := some (Storage.SimpleLRU.create maxSize)
    let entries : Option Storage.Cache := some ⟨maxSize.toNat, 0, []⟩
    (∀ clients : List Client,
      let x := (Conn.create pointers (argRemains 0) (negative 0)).onRun simpleLRU clients
      let y := (Conn.create entries (argRemains 0) (negative 0)).onRun cache clients
      x.1 = y.1 ∧ Option.Rel Storage.Refines x.2.storage y.2.storage) ∧
    (∀ (f : FrontEnd ω) (o : ω) (chunks : List Bytes),
      let x := (Conn.create pointers (argRemains 0) (negative 0)).readLoop simpleLRU f o chunks
      let y := (Conn.create entries (argRemains 0) (negative 0)).readLoop cache f o chunks
      x.2 = y.2 ∧ x.1.executed = y.1.executed ∧ x.1.fault = y.1.fault ∧
        Option.Rel Storage.Refines x.1.storage y.1.storage) ∧
    ∀ (epollerr : Bool) (ops : List (Nat × Connection.Op)),
      Option.Rel (fun x y => (∀ i, (x.2.connections i).accepted = (y.2.connections i).accepted ∧
            (x.2.connections i).pending = (y.2.connections i).pending ∧
            (x.2.connections i).alive = (y.2.connections i).alive) ∧
          x.2.history = y.2.history ∧ Option.Rel Storage.Refines x.2.storage y.2.storage)
        (run (Clients.step simpleLRU epollerr) ops (.start epollerr pointers argRemains negative))
        (run (Clients.step cache epollerr) ops (.start epollerr entries argRemains negative)) := by
  intro pointers entries
  have hR : Option.Rel Storage.Refines pointers entries := .some (Storage.create_refines maxSize)
  have hconn := Conn.Matches.create (E := Eq) hR (argRemains 0) (negative 0)
  refine ⟨?_, ?_, ?_⟩
  · intro clients x y
    obtain ⟨ho, hm⟩ := hconn.onRun simpleLRU_simulates clients
    exact ⟨ho, hm.storage⟩
  · intro f o chunks x y
    obtain ⟨hm, ho⟩ := Conn.Matches.readLoop (.of_simulates simpleLRU_simulates) f.matches_self
      hconn (rfl : o = o) chunks
    exact ⟨ho, hm.executed_eq, hm.fault, hm.storage⟩
  · intro epollerr ops
    have hstart : Clients.Mirrors (Option.Rel Storage.Refines)
        (.start epollerr pointers argRemains negative) (.start epollerr entries argRemains negative) :=
      ⟨fun i => ⟨.create trivial _ _, rfl, rfl, rfl⟩, hR, rfl⟩
    have hrun := run_rel (Clients.step simpleLRU epollerr) (Clients.step cache epollerr)
      (Clients.Mirrors (Option.Rel Storage.Refines)) (fun a x y h => h.step simpleLRU_simulates a)
      ops hstart
    apply rel_imp hrun
    intro x y hxy
    have hi := hxy.2.connections
    exact ⟨fun i => ⟨(hi i).accepted, (hi i).pending, (hi i).alive⟩, hxy.2.history, hxy.2.storage⟩

end Sysprog.Network
