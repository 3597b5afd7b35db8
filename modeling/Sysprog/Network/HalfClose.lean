import Sysprog.Network.Framing
import Sysprog.Network.Interest

namespace Sysprog.Network

open Execute Protocol

variable {σ : Type}

/-- A connection of a non-blocking server together with its client. -/
structure Session (σ : Type) where
  /-- What the client has still to send. -/
  unsent : Bytes
  /-- What has arrived and was not read yet. -/
  unread : Bytes
  /-- The client has shut down its writing side. -/
  halfClosed : Bool
  watched : Watched σ

namespace Session

/-- What happens next: bytes arrive, the client shuts down its writing side, or the server handles
an event. -/
inductive Turn where
  | arrive (n : Nat)
  | shutdown
  | event (e : Reported)

section

variable (S : Storage σ) (l : Loop)

/-- The client has connected and is about to send a stream. -/
def start (stream : Bytes) (storage : σ) (argRemains : Nat) (negative : Bool) : Session σ :=
  ⟨stream, [], false, l.register storage argRemains negative⟩

/-- The `read` calls of `DoRead` return all unread bytes, and then the end of the stream or `EAGAIN`. -/
def Reads (e : Reported) (x : Session σ) : Prop :=
  Cut x.unread e.chunks ∧ e.last.Graceful

/-- `_results` when the event comes to `DoWrite`. -/
def resultsAt (e : Reported) (x : Session σ) : Bytes :=
  (if e.epollin then x.watched.polled.doRead S l.epollerr e.chunks e.last
    else x.watched.polled).output.results

/-- `send` succeeds: it takes one byte at least. -/
def Sends (e : Reported) (x : Session σ) : Prop :=
  1 ≤ e.sendResult ∧ e.sendResult ≤ (resultsAt S l e x).length ∧ e.sendResult < 2 ^ 63

/-- The events the kernel may report: bits that were asked for, `EPOLLIN` for unread bytes or the
end of the stream and `EPOLLRDHUP` for a half-closed connection. -/
structure Reports (e : Reported) (x : Session σ) : Prop where
  asked : Loop.Reportable e x.watched
  epollin : e.epollin = true → x.unread ≠ [] ∨ x.halfClosed = true
  epollrdhup : e.epollrdhup = true → x.halfClosed = true
  noError : e.epollerr = false ∧ e.epollhup = false
  reads : e.epollrdhup = false → e.epollin = true → Reads e x
  sends : e.epollrdhup = false → e.epollout = true → Sends S l e x

instance (e : Reported) (x : Session σ) : Decidable (Reads e x) :=
  have : Decidable (∀ chunk ∈ e.chunks, 1 ≤ chunk.length ∧ chunk.length ≤ 4096) :=
    List.decidableBAll _ _
  inferInstanceAs (Decidable ((_ ∧ _) ∧ _))

instance (e : Reported) (x : Session σ) : Decidable (Sends S l e x) :=
  inferInstanceAs (Decidable (_ ∧ _ ∧ _))

instance (e : Reported) (x : Session σ) : Decidable (Reports S l e x) :=
  decidable_of_iff (Loop.Reportable e x.watched ∧
      (e.epollin = true → x.unread ≠ [] ∨ x.halfClosed = true) ∧
      (e.epollrdhup = true → x.halfClosed = true) ∧ (e.epollerr = false ∧ e.epollhup = false) ∧
      (e.epollrdhup = false → e.epollin = true → Reads e x) ∧
      (e.epollrdhup = false → e.epollout = true → Sends S l e x))
    ⟨fun ⟨h1, h2, h3, h4, h5, h6⟩ => ⟨h1, h2, h3, h4, h5, h6⟩,
      fun ⟨h1, h2, h3, h4, h5, h6⟩ => ⟨h1, h2, h3, h4, h5, h6⟩⟩

def step : Turn → Session σ → Option (Unit × Session σ)
  | .arrive n, x =>
    some ((), { x with unsent := x.unsent.drop n, unread := x.unread ++ x.unsent.take n })
  | .shutdown, x => if x.unsent = [] then some ((), { x with halfClosed := true }) else none
  | .event e, x =>
    if Reports S l e x then
      some ((), { x with
        unread := if e.epollin && !e.epollrdhup then [] else x.unread
        watched := l.handle S e x.watched })
    else none

/-- `EPOLLRDHUP` comes when all bytes are read and all responses are sent. -/
def Drained : Turn → Session σ → Prop
  | .event e, x => e.epollrdhup = true → x.unread = [] ∧ x.watched.polled.output.results = []
  | _, _ => True

instance : ∀ (t : Turn) (x : Session σ), Decidable (Drained t x)
  | .event _, _ => inferInstanceAs (Decidable (_ → _ ∧ _))
  | .arrive _, _ | .shutdown, _ => inferInstanceAs (Decidable True)

/-- Every request was run with its data, and every response was handed to `send`. -/
def Served (requests : List Request) (x : Session σ) : Prop :=
  x.watched.polled.conn.executed.map (fun e => (e.command, e.argument)) =
      requests.map (fun r => (r.command, r.data)) ∧
    x.watched.polled.accepted = framed terminated x.watched.polled.conn.executed

end

variable {S : Storage σ} {l : Loop}

/-- The connection has been fed some bytes and has neither lost nor invented output. -/
structure Fed (S : Storage σ) (c₀ : Conn σ) (read : Bytes) (c : Connection σ) : Prop where
  alive : c.alive = true
  conn : c.conn = read.foldl (Conn.feed S) c₀
  conserves : c.Conserves

theorem Fed.doRead {c₀ : Conn σ} {read unread : Bytes} {c : Connection σ} (h : Fed S c₀ read c)
    (hready : c₀.Ready) (hok : ((read ++ unread).foldl (Conn.feed S) c₀).fault = none)
    {chunks : List Bytes} {last : ReadEnd} (hc : Cut unread chunks) (hl : last.Graceful)
    (epollerr : Bool) : Fed S c₀ (read ++ unread) (c.doRead S epollerr chunks last) := by
  have hfault : c.conn.fault = none := by
    by_contra hf
    rw [List.foldl_append, ← h.conn, Conn.foldl_feed_of_fault (Option.isSome_iff_ne_none.mpr hf)] at hok
    exact hf hok
  have hr : c.conn.Ready := by
    rw [h.conn] at hfault ⊢
    exact Conn.foldl_feed_ready hready read hfault
  have hread := Conn.readLoop_feed (S := S) (nonBlocking_succeeds epollerr) hr c.pending chunks
  have hdo := Connection.doRead_graceful (S := S) epollerr hfault chunks hl
  rw [hc.1, h.conn, ← List.foldl_append, ← h.conn] at hread
  have hnone : (c.conn.readLoop S (nonBlocking epollerr) c.pending chunks).1.fault = none := by
    rw [← hread] at hok
    simpa [Conn.unplaced] using hok
  rw [Conn.unplaced_of_alive hnone] at hread
  refine ⟨?_, ?_, Connection.doRead_conserves h.conserves chunks last⟩
  · rw [hdo]
    simp [h.alive, hnone]
  · rw [hdo]
    exact hread

theorem Fed.doWrite {c₀ : Conn σ} {read : Bytes} {c : Connection σ} (h : Fed S c₀ read c) {n : Int}
    (h1 : 1 ≤ n) (hle : n ≤ c.pending.results.length) (hlt : n < 2 ^ 63) (epollerr : Bool) :
    Fed S c₀ read (c.doWrite epollerr n) := by
  have hn : Connection.unsignedLong n = n.toNat := by
    rw [Connection.unsignedLong, Int.emod_eq_of_lt (by omega) (by omega)]
  have hpos : ¬ n.toNat ≤ 0 := by omega
  refine ⟨?_, ?_, ?_⟩
  · simp only [Connection.doWrite, hn, hpos, if_false]
    split_ifs <;> exact h.alive
  · rw [Connection.doWrite_conn]
    exact h.conn
  · exact Connection.doWrite_conserves h.conserves (.inr (.inr ⟨h1, hle, hlt⟩)) (.inr (by omega))

/-- An event without `EPOLLRDHUP` is read and written for. -/
theorem Fed.dispatch {c₀ : Conn σ} {read : Bytes} {e : Reported} {x : Session σ}
    (h : Fed S c₀ read x.watched.polled.connection) (hready : c₀.Ready)
    (hok : ((read ++ x.unread).foldl (Conn.feed S) c₀).fault = none) (hr : Reports S l e x)
    (hhup : e.epollrdhup = false) :
    Fed S c₀ (if e.epollin then read ++ x.unread else read)
      (l.dispatch S e x.watched.polled).connection := by
  have hread : Fed S c₀ (if e.epollin then read ++ x.unread else read)
      (if e.epollin then x.watched.polled.doRead S l.epollerr e.chunks e.last
        else x.watched.polled).connection := by
    split_ifs with hin
    · obtain ⟨hcut, hlast⟩ := hr.reads hhup hin
      rw [Polled.doRead_connection]
      exact h.doRead hready hok hcut hlast l.epollerr
    · exact h
  simp only [Loop.dispatch, hr.noError.1, hr.noError.2, hhup, Bool.or_self, Bool.false_eq_true, if_false]
  by_cases hout : e.epollout = true
  · obtain ⟨h1, hle, hlt⟩ := hr.sends hhup hout
    rw [if_pos hout, Polled.doWrite_connection]
    exact hread.doWrite h1 hle hlt l.epollerr
  · rw [if_neg hout]
    exact hread

/-- What holds all along a session whose stream can be fed without an exception: a connection that
is alive has been fed what it has read, and one that is not has nothing left to do. -/
structure Serving (S : Storage σ) (c₀ : Conn σ) (stream read : Bytes) (x : Session σ) : Prop where
  split : stream = read ++ x.unread ++ x.unsent
  halfClosed : x.halfClosed = true → x.unsent = []
  consistent : Loop.Consistent x.watched
  fed : x.watched.polled.alive = true → Fed S c₀ read x.watched.polled.connection
  done : x.watched.polled.alive = false →
    x.watched.polled.conn = stream.foldl (Conn.feed S) c₀ ∧
    x.watched.polled.accepted = framed terminated x.watched.polled.conn.executed

theorem Serving.event {c₀ : Conn σ} {stream read : Bytes} {x : Session σ}
    (h : Serving S c₀ stream read x) (hready : c₀.Ready)
    (hok : (stream.foldl (Conn.feed S) c₀).fault = none) {e : Reported} (hr : Reports S l e x)
    (hd : Drained (.event e) x) :
    ∃ read', Serving S c₀ stream read' { x with
      unread := if e.epollin && !e.epollrdhup then [] else x.unread
      watched := l.handle S e x.watched } := by
  obtain ⟨m, hm, -⟩ := hr.asked
  have halive : x.watched.polled.alive = true := h.consistent.alive.mpr (by simp [hm])
  have hfed := h.fed halive
  have hcons := Loop.handle_consistent (S := S) l h.consistent hr.asked
  have hconn := Loop.handle_connection (S := S) l e x.watched
  cases hhup : e.epollrdhup with
  | true =>
    -- the connection is closed; nothing was left
    obtain ⟨hunread, hresults⟩ := hd hhup
    have hunsent := h.halfClosed (hr.epollrdhup hhup)
    have hall : stream = read := by simpa [hunread, hunsent] using h.split
    have hclose : (l.handle S e x.watched).polled.connection = x.watched.polled.onClose.connection := by
      rw [hconn]
      simp [Loop.dispatch, hr.noError.1, hr.noError.2, hhup]
    have hdead : (l.handle S e x.watched).polled.alive = false := congrArg Connection.alive hclose
    have hout : x.watched.polled.accepted ++ x.watched.polled.output.results = _ :=
      hfed.conserves halive
    rw [hresults, List.append_nil] at hout
    refine ⟨read, by simpa using h.split, h.halfClosed, hcons, by simp [hdead], ?_⟩
    intro _
    have hc : (l.handle S e x.watched).polled.conn = x.watched.polled.conn :=
      congrArg Connection.conn hclose
    have ha : (l.handle S e x.watched).polled.accepted = x.watched.polled.accepted :=
      congrArg Connection.accepted hclose
    change (l.handle S e x.watched).polled.conn = _ ∧ (l.handle S e x.watched).polled.accepted = _
    rw [hc, ha, hall]
    exact ⟨hfed.conn, hout⟩
  | false =>
    have hpre : ((read ++ x.unread).foldl (Conn.feed S) c₀).fault = none := by
      by_contra hf
      rw [h.split, List.foldl_append, Conn.foldl_feed_of_fault (Option.isSome_iff_ne_none.mpr hf)] at hok
      exact hf hok
    have hnext := hfed.dispatch hready hpre hr hhup
    rw [← hconn] at hnext
    have hstill : (l.handle S e x.watched).polled.alive = true := hnext.alive
    refine ⟨if e.epollin then read ++ x.unread else read, ?_, h.halfClosed, hcons, fun _ => hnext,
      by simp [hstill]⟩
    rw [h.split]
    cases e.epollin <;> simp

theorem Serving.step {c₀ : Conn σ} {stream read : Bytes} {x y : Session σ} {t : Turn}
    (h : Serving S c₀ stream read x) (hready : c₀.Ready)
    (hok : (stream.foldl (Conn.feed S) c₀).fault = none) (hd : Drained t x)
    (hs : Session.step S l t x = some ((), y)) : ∃ read', Serving S c₀ stream read' y := by
  cases t with
  | arrive n =>
    cases hs
    refine ⟨read, ?_, ?_, h.consistent, h.fed, h.done⟩
    · rw [h.split]
      simp
    · intro hc
      simp [h.halfClosed hc]
  | shutdown =>
    simp only [Session.step] at hs
    split_ifs at hs with hnil
    cases hs
    exact ⟨read, h.split, fun _ => hnil, h.consistent, h.fed, h.done⟩
  | event e =>
    by_cases hr : Reports S l e x
    · simp only [Session.step, if_pos hr] at hs
      cases hs
      exact h.event hready hok hr hd
    · simp [Session.step, hr] at hs

theorem start_serving (stream : Bytes) (storage : σ) (argRemains : Nat) (negative : Bool) :
    Serving S (.create storage argRemains negative) stream []
      (start l stream storage argRemains negative) := by
  have hfed : Fed S (.create storage argRemains negative) []
      (l.register storage argRemains negative).polled.connection := by
    cases l <;> exact ⟨rfl, rfl, fun _ => rfl⟩
  have halive : (l.register storage argRemains negative).polled.alive = true := hfed.alive
  exact ⟨rfl, by simp [start], Loop.register_consistent l storage argRemains negative, fun _ => hfed,
    by simp [start, halive]⟩

end Session

/-- The non-blocking servers look at `EPOLLRDHUP` before `EPOLLIN` and `EPOLLOUT`: a client that shuts
down its writing side is served as long as this event comes after everything is read and sent. -/
theorem half_closed_served (S : Storage σ) (l : Loop) (storage : σ) (argRemains : Nat)
    (negative : Bool) (requests : List Request) (hr : ∀ r ∈ requests, r.WellFormed)
    (hb : ∀ r ∈ requests, r.HasBody ∧ r.Expires) (turns : List Session.Turn) (us : List Unit)
    (x : Session σ)
    (hd : AllSteps (Session.step S l) Session.Drained turns
      (.start l (requests.flatMap Request.encode) storage argRemains negative))
    (hrun : run (Session.step S l) turns
      (.start l (requests.flatMap Request.encode) storage argRemains negative) = some (us, x))
    (hdead : x.watched.polled.alive = false) : x.Served requests := by
  obtain ⟨hidle, hex⟩ := Conn.foldl_feed_sequence (S := S)
    (Conn.create_idle storage argRemains negative) hr hb
  have hready := Conn.create_ready storage argRemains negative
  obtain ⟨read, hserving⟩ : ∃ read, Session.Serving S (.create storage argRemains negative)
      (requests.flatMap Request.encode) read x := by
    refine run_invariant (Session.step S l) Session.Drained (fun x => ∃ read, Session.Serving S
      (.create storage argRemains negative) (requests.flatMap Request.encode) read x) ?_ turns _ x us
      ⟨[], Session.start_serving _ storage argRemains negative⟩ hd hrun
    intro t x u y hx hdrained hs
    obtain ⟨read, hx⟩ := hx
    exact hx.step hready hidle.alive hdrained hs
  obtain ⟨hconn, hout⟩ := hserving.done hdead
  refine ⟨?_, hout⟩
  rw [hconn, hex]
  simp [Conn.create]

/-- A request, its response, the half-close. -/
theorem half_closed_served_stats :
    let turns : List Session.Turn := [.arrive 7, .shutdown,
      .event ⟨true, false, false, false, false, [text "stats\r\n"], .closed, 0⟩,
      .event ⟨false, true, false, false, false, [], .closed, 5⟩,
      .event ⟨true, false, true, false, false, [], .closed, 0⟩]
    ∃ us x, run (Session.step simpleLRU .stNonblock) turns
        (.start .stNonblock ([Request.stats].flatMap Request.encode)
          (some (Storage.SimpleLRU.create 8)) 0 false) = some (us, x) ∧
      x.watched.polled.alive = false ∧ x.Served [.stats] := by
  intro turns
  exact ⟨[(), (), (), (), ()], _, rfl, rfl,
    half_closed_served simpleLRU .stNonblock (some (Storage.SimpleLRU.create 8)) 0 false [.stats]
      (by decide) (by decide) turns _ _ (by decide) rfl rfl⟩

/-- The client sends `stats`, shuts down its writing side and waits for the answer; the one event
that reports both has the connection closed unread. -/
theorem half_closed_dropped :
    let turns : List Session.Turn :=
      [.arrive 7, .shutdown, .event ⟨true, false, true, false, false, [], .closed, 0⟩]
    let start := fun l => Session.start l ([Request.stats].flatMap Request.encode)
      (some (Storage.SimpleLRU.create 8)) 0 false
    (∃ us x, run (Session.step simpleLRU .stNonblock) turns (start .stNonblock) = some (us, x) ∧
      x.watched.polled.alive = false ∧ ¬ x.Served [.stats]) ∧
    (∃ us x, run (Session.step simpleLRU .mtNonblock) turns (start .mtNonblock) = some (us, x) ∧
      x.watched.polled.alive = false ∧ ¬ x.Served [.stats]) := by
  refine ⟨⟨[(), (), ()], _, rfl, rfl, ?_⟩, ⟨[(), (), ()], _, rfl, rfl, ?_⟩⟩
  · intro h
    exact absurd (congrArg List.length h.1) (by decide)
  · intro h
    exact absurd (congrArg List.length h.1) (by decide)

end Sysprog.Network
