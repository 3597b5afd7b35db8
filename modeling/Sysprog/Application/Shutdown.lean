import Sysprog.Application.Process
import Sysprog.Lib.Progress

namespace Sysprog.Application

open Network

variable {σ : Type}

/-- Who goes on. -/
inductive Party where
  | main
  | handler (k : Nat)
  | net
  | client
  | kernel
  deriving DecidableEq

def Action.party : Action → Party
  | main _ => .main
  | handler k => .handler k
  | net _ => .net
  | ended _ => .client
  | interrupt | signal _ | arrive _ | read _ => .kernel

def Main.ended : Main → Bool
  | returned | failed => true
  | _ => false

def Handler.rank : Handler → Nat
  | storing _ => 2
  | posting => 1
  | returned => 0

/-- `main` in front of the wait can go back and forth until a handler has posted. -/
def Main.rank (posted : Bool) : Main → Nat
  | starting => 9
  | spawning => 8
  | checking => if posted then 6 else 7
  | waiting => 7
  | stopping => 5
  | shutdown => 4
  | joining => 3
  | closing => 2
  | returned | failed => 0

/-- What `OnRun` has before it once the server socket is shut. -/
def Net.rank : Net → Nat
  | idle | returned => 0
  | looping => 1
  | accepting | closing _ _ => 2
  | reading .. => 3

/-- Who brings the end of `OnRun` nearer: while it reads, the client that comes to its end. -/
def Net.helpful : Net → Party
  | reading .. => .client
  | _ => .net

namespace State

variable {S : Execute.Storage σ} {conn : Conn σ} {s t : State σ}

/-- The handler of the first signal, once there is one. -/
def first (s : State σ) : Handler := s.handlers.headD .posting

def rank (s : State σ) : Nat ×ₗ Nat :=
  toLex (s.first.rank + s.main.rank s.first.isReturned, if s.main = .joining then s.net.rank else 0)

/-- Who brings the end nearer. -/
def helpful (s : State σ) : Party :=
  if s.first.isReturned = false then .handler 0
  else if s.main = .joining ∧ s.net.started = true then s.net.helpful else .main

theorem first_push (hs : s.handlers ≠ []) (h : Handler) :
    (s.handlers ++ [h]).headD .posting = s.first := by
  cases hh : s.handlers with
  | nil => exact absurd hh hs
  | cons x xs => simp [first, hh]

theorem first_set {k : Nat} (hk : k ≠ 0) (h : Handler) :
    (s.handlers.set k h).headD .posting = s.first := by
  cases hh : s.handlers with
  | nil => simp [first, hh]
  | cons x xs =>
    cases k with
    | zero => exact absurd rfl hk
    | succ k => simp [first, hh]

/-- Nothing that counts has changed. -/
theorem nearer_same (first : t.first = s.first) (main : t.main = s.main) (net : t.net = s.net) :
    Nearer rank helpful s t := by
  right
  simp only [rank, helpful, first, main, net, and_self]

theorem rank_lt_of_main {m n : Main} (first : t.first = s.first) (hs : s.main = m)
    (ht : t.main = n) (lt : ∀ posted, n.rank posted < m.rank posted) : t.rank < s.rank := by
  apply Prod.Lex.toLex_lt_toLex.mpr
  left
  rw [first, hs, ht]
  exact Nat.add_lt_add_left (lt _) _

/-- Whoever waits for a handler, in front of `sem_wait` or there, is as far as before. -/
theorem nearer_waiting (first : t.first = s.first) (here : s.first.isReturned = false)
    (hs : s.main = .checking ∨ s.main = .waiting) (ht : t.main = .checking ∨ t.main = .waiting) :
    t.rank = s.rank ∧ t.helpful = .handler 0 ∧ s.helpful = .handler 0 := by
  have place : ∀ {r : State σ}, r.main = .checking ∨ r.main = .waiting →
      r.main.rank false = 7 ∧ r.main ≠ .joining := by
    intro r hr
    rcases hr with hr | hr <;> simp [hr, Main.rank]
  refine ⟨?_, if_pos (first ▸ here), if_pos here⟩
  simp only [rank, first, here, (place hs).1, (place ht).1, (place hs).2, (place ht).2, if_false]

theorem main_nearer {ok : Bool} (h : Inv S conn s) (hstep : s.stepMain ok = some t) :
    Nearer rank helpful s t ∧ (s.helpful = .main → t.rank < s.rank) := by
  have lower : t.rank < s.rank → Nearer rank helpful s t ∧ (s.helpful = .main → t.rank < s.rank) :=
    fun lt => ⟨.inl lt, fun _ => lt⟩
  rw [stepMain] at hstep
  cases hm : s.main with
  | starting | spawning =>
    rw [hm] at hstep
    cases ok with
    | true | false =>
      cases hstep
      exact lower (rank_lt_of_main rfl hm rfl (by dsimp only; decide))
  | checking =>
    rw [hm] at hstep
    cases hstep
    by_cases zero : s.stopReason = 0
    · have here : s.first.isReturned = false := by
        rw [first]
        cases hh : s.handlers with
        | nil => rfl
        | cons x xs =>
          obtain ⟨signal, rfl⟩ := h.stored zero x (hh ▸ List.mem_cons_self)
          rfl
      rw [if_pos zero]
      have same := nearer_waiting (s := s) (t := { s with main := .waiting }) rfl here (.inl hm)
        (.inr rfl)
      refine ⟨.inr ⟨same.1, same.2.1.trans same.2.2.symm⟩, ?_⟩
      intro helps
      rw [same.2.2] at helps
      cases helps
    · apply lower
      exact rank_lt_of_main rfl hm (if_neg zero) (by decide)
  | waiting =>
    simp only [hm, Option.ite_none_left_eq_some, Option.some.injEq] at hstep
    obtain ⟨-, rfl⟩ := hstep
    exact lower (rank_lt_of_main rfl hm rfl (by dsimp only; decide))
  | stopping | shutdown | closing =>
    rw [hm] at hstep
    cases hstep
    exact lower (rank_lt_of_main rfl hm rfl (by dsimp only; decide))
  | joining =>
    rw [hm] at hstep
    dsimp only at hstep
    split at hstep
    · cases hstep
      exact lower (rank_lt_of_main rfl hm rfl (by dsimp only; decide))
    · cases hstep
  | returned | failed => simp [hm] at hstep

theorem interrupt_nearer (hm : s.main = .waiting) :
    Nearer rank helpful s { s with main := .checking } := by
  cases here : s.first.isReturned with
  | false =>
    have same := nearer_waiting (s := s) (t := { s with main := .checking }) rfl here (.inr hm)
      (.inl rfl)
    exact .inr ⟨same.1, same.2.1.trans same.2.2.symm⟩
  | true =>
    left
    apply Prod.Lex.toLex_lt_toLex.mpr
    left
    show s.first.rank + Main.rank s.first.isReturned .checking < _
    rw [here, hm]
    exact Nat.add_lt_add_left (by decide) _

theorem handler_nearer {k : Nat} (hstep : s.stepHandler k = some t) :
    Nearer rank helpful s t ∧ (k = 0 → t.rank < s.rank) := by
  rw [stepHandler] at hstep
  cases hk : s.handlers[k]? with
  | none => simp [hk] at hstep
  | some x =>
    by_cases zero : k = 0
    · -- the first handler: `main` may only get nearer by it
      have lower : t.rank < s.rank := by
        subst zero
        have here : s.first = x := by
          rw [first, List.headD_eq_head?_getD, List.head?_eq_getElem?, hk]
          rfl
        have change : ∀ y, (s.handlers.set 0 y).headD .posting = y := by
          intro y
          cases hh : s.handlers with
          | nil => simp [hh] at hk
          | cons z zs => rfl
        cases x with
        | storing signal =>
          simp only [hk, Option.some.injEq] at hstep
          subst hstep
          apply Prod.Lex.toLex_lt_toLex.mpr
          left
          rw [here]
          simp only [first, change]
          exact Nat.add_lt_add_right (by decide : 1 < 2) _
        | posting =>
          simp only [hk, Option.some.injEq] at hstep
          subst hstep
          apply Prod.Lex.toLex_lt_toLex.mpr
          left
          rw [here]
          simp only [first, change]
          cases s.main <;> decide
        | returned => simp [hk] at hstep
      exact ⟨.inl lower, fun _ => lower⟩
    · refine ⟨?_, fun h => absurd h zero⟩
      cases x with
      | storing signal =>
        simp only [hk, Option.some.injEq] at hstep
        subst hstep
        exact nearer_same (first_set zero _) rfl rfl
      | posting =>
        simp only [hk, Option.some.injEq] at hstep
        subst hstep
        exact nearer_same (first_set zero _) rfl rfl
      | returned => simp [hk] at hstep

/-- Once the server socket is shut, `OnRun` comes nearer to its end, but for what it reads. -/
theorem net_lower {ok : Bool} (running : s.running = false) (shut : s.serverSocket = .shut)
    (hstep : s.stepNet ok = some t) : t.net.rank < s.net.rank := by
  rw [stepNet] at hstep
  cases hn : s.net with
  | idle | returned | reading => simp [hn] at hstep
  | looping =>
    rw [hn] at hstep
    cases hstep
    simp [running, Net.rank]
  | accepting =>
    simp only [hn, shut, reduceCtorEq, and_false, if_false, Option.some.injEq] at hstep
    subst hstep
    simp [Net.rank]
  | closing client out =>
    rw [hn] at hstep
    cases hstep
    simp [Net.rank]

/-- While `main` is not in `_thread.join()`, it does not matter where `OnRun` is. -/
theorem nearer_elsewhere (hm : s.main ≠ .joining) (first : t.first = s.first)
    (main : t.main = s.main) : Nearer rank helpful s t := by
  right
  simp only [rank, helpful, first, main, hm, if_false, false_and, and_self]

/-- What `OnRun` does while `main` joins it. -/
theorem nearer_joining (first : t.first = s.first) (main : t.main = s.main)
    (lower : s.main = .joining → t.net.rank < s.net.rank) :
    Nearer rank helpful s t ∧ (s.main = .joining → t.rank < s.rank) := by
  by_cases hm : s.main = .joining
  · have lt : t.rank < s.rank := by
      apply Prod.Lex.toLex_lt_toLex.mpr
      right
      rw [first, main, if_pos hm, if_pos hm]
      exact ⟨rfl, lower hm⟩
    exact ⟨.inl lt, fun _ => lt⟩
  · exact ⟨nearer_elsewhere hm first main, fun h => absurd h hm⟩

theorem stepNet_same {ok : Bool} (hstep : s.stepNet ok = some t) :
    t.handlers = s.handlers ∧ t.main = s.main := by
  rw [stepNet] at hstep
  cases hn : s.net with
  | idle | returned | reading => simp [hn] at hstep
  | looping | closing =>
    rw [hn] at hstep
    cases hstep
    exact ⟨rfl, rfl⟩
  | accepting =>
    simp only [hn] at hstep
    split_ifs at hstep
    · cases hb : s.backlog with
      | nil => simp [hb] at hstep
      | cons client backlog =>
        simp only [hb, Option.some.injEq] at hstep
        subst hstep
        exact ⟨rfl, rfl⟩
    · cases hstep
      exact ⟨rfl, rfl⟩

theorem net_nearer {ok : Bool} (h : Inv S conn s) (hstep : s.stepNet ok = some t) :
    Nearer rank helpful s t ∧ (s.main = .joining → t.rank < s.rank) := by
  obtain ⟨handlers, main⟩ := stepNet_same hstep
  have first : t.first = s.first := by
    rw [State.first, handlers]
    rfl
  apply nearer_joining first main
  intro hm
  have hstage := h.stage
  rw [Stage, hm] at hstage
  exact net_lower hstage.2.1 hstage.2.2 hstep

/-- What is read leaves it to the same client to come to its end, or throws. -/
theorem read_nearer {chunk : Bytes} (hstep : s.stepRead S chunk = some t) :
    t.handlers = s.handlers ∧ Nearer rank helpful s t := by
  rw [stepRead] at hstep
  cases hn : s.net with
  | reading send chunks out =>
    rw [hn] at hstep
    dsimp only at hstep
    generalize s.conn.process S (stBlocking send) out chunk = r at hstep
    obtain ⟨c, o⟩ := r
    cases hstep
    refine ⟨rfl, ?_⟩
    split_ifs with fault
    · refine (nearer_joining ?_ ?_ ?_).1
      · rfl
      · rfl
      · simp [hn, Net.rank]
    · right
      simp only [rank, helpful, first, hn, Net.rank, Net.helpful, Net.started, and_self]
  | _ => simp [hn] at hstep

theorem ended_nearer {last : Option Bytes} (hstep : s.stepEnded last = some t) :
    t.handlers = s.handlers ∧ Nearer rank helpful s t ∧
      (s.main = .joining → t.rank < s.rank) := by
  rw [stepEnded] at hstep
  cases hn : s.net with
  | reading send chunks out =>
    rw [hn] at hstep
    cases hstep
    exact ⟨rfl, nearer_joining rfl rfl fun _ => by simp [hn, Net.rank]⟩
  | _ => simp [hn] at hstep

/-- Once a signal was delivered, no step leads away from the end. -/
theorem step_nearer (a : Action) (u : Unit) (h : Inv S conn s) (hs : s.handlers ≠ [])
    (hstep : step S a s = some (u, t)) : Nearer rank helpful s t := by
  cases moves_of_step hstep with
  | main ht => exact (main_nearer h ht).1
  | interrupt hm => exact interrupt_nearer hm
  | signal => exact nearer_same (first_push hs _) rfl rfl
  | handler ht => exact (handler_nearer ht).1
  | arrive => exact nearer_same rfl rfl rfl
  | net ht => exact (net_nearer h ht).1
  | read ht => exact (read_nearer ht).2
  | ended ht => exact (ended_nearer ht).2.1

theorem stepMain_same {ok : Bool} (hstep : s.stepMain ok = some t) : t.handlers = s.handlers := by
  rw [stepMain] at hstep
  cases hm : s.main with
  | starting | spawning =>
    rw [hm] at hstep
    cases ok <;> cases hstep <;> rfl
  | checking | stopping | shutdown | closing =>
    rw [hm] at hstep
    cases hstep
    rfl
  | waiting =>
    simp only [hm, Option.ite_none_left_eq_some, Option.some.injEq] at hstep
    obtain ⟨-, rfl⟩ := hstep
    rfl
  | joining =>
    rw [hm] at hstep
    dsimp only at hstep
    split at hstep <;> cases hstep
    rfl
  | returned | failed => simp [hm] at hstep

theorem stepHandler_length {k : Nat} (hstep : s.stepHandler k = some t) :
    t.handlers.length = s.handlers.length := by
  rw [stepHandler] at hstep
  split at hstep <;> cases hstep
  · apply List.length_set
  · apply List.length_set

/-- A signal that was delivered stays delivered. -/
theorem delivered_step (a : Action) (u : Unit) (hs : s.handlers ≠ [])
    (hstep : step S a s = some (u, t)) : t.handlers ≠ [] := by
  cases moves_of_step hstep with
  | main ht => rwa [stepMain_same ht]
  | interrupt => exact hs
  | signal => simp
  | handler ht =>
    apply List.ne_nil_of_length_pos
    rw [stepHandler_length ht]
    exact List.length_pos_of_ne_nil hs
  | arrive => exact hs
  | net ht => rwa [(stepNet_same ht).1]
  | read ht => rwa [(read_nearer ht).1]
  | ended ht => rwa [(ended_nearer ht).1]

/-- Whoever helps can go on. -/
theorem main_moves (ok : Bool) (h : Inv S conn s) (hs : s.helpful = .main)
    (going : s.main.ended = false) : ∃ t, s.stepMain ok = some t := by
  have hstage := h.stage
  rw [Stage] at hstage
  rw [helpful] at hs
  split_ifs at hs with here there
  · cases hn : s.net <;> simp [hn, Net.helpful] at hs
  rw [stepMain]
  cases hm : s.main with
  | starting | spawning => cases ok <;> exact ⟨_, rfl⟩
  | checking | stopping | shutdown | closing => exact ⟨_, rfl⟩
  | waiting =>
    have some_posted : s.stopSemaphore ≠ 0 := by
      rw [h.semaphore (by rw [hm]; rfl)]
      apply Nat.ne_of_gt
      cases hh : s.handlers with
      | nil => simp [first, hh, Handler.isReturned] at here
      | cons x xs =>
        have posted : x.isReturned = true := by simpa [first, hh] using here
        exact List.countP_pos_iff.mpr ⟨x, List.mem_cons_self, posted⟩
    exact ⟨_, if_neg some_posted⟩
  | joining =>
    simp only [hm] at hstage there
    cases hn : s.net with
    | idle => exact absurd hn hstage.1
    | returned => exact ⟨_, rfl⟩
    | _ => simp [hn, Net.started] at there
  | returned | failed => simp [hm, Main.ended] at going

theorem net_moves (ok : Bool) (shut : s.serverSocket = .shut) (started : s.net.started = true)
    (helps : s.net.helpful = .net) : ∃ t, s.stepNet ok = some t := by
  rw [stepNet]
  cases hn : s.net with
  | idle | returned =>
    rw [hn] at started
    cases started
  | reading =>
    rw [hn] at helps
    cases helps
  | looping | closing => exact ⟨_, rfl⟩
  | accepting =>
    refine ⟨_, if_neg ?_⟩
    simp [shut]

theorem ended_moves (last : Option Bytes) (helps : s.net.helpful = .client) :
    ∃ t, s.stepEnded last = some t := by
  rw [stepEnded]
  cases hn : s.net with
  | reading => exact ⟨_, rfl⟩
  | _ => simp [hn, Net.helpful] at helps

theorem helpful_moves (h : Inv S conn s) (hs : s.handlers ≠ []) (going : s.main.ended = false) :
    (s.helpful = .main ∨ s.helpful = .handler 0 ∨ s.helpful = .net ∨ s.helpful = .client) ∧
      ∀ a, Action.party a = s.helpful → ∃ u t, step S a s = some (u, t) ∧ t.rank < s.rank := by
  by_cases here : s.first.isReturned = false
  · have helps : s.helpful = .handler 0 := if_pos here
    rw [helps]
    refine ⟨.inr (.inl rfl), ?_⟩
    intro a ha
    cases a with
    | handler k =>
      cases ha
      obtain ⟨t, ht⟩ : ∃ t, s.stepHandler 0 = some t := by
        rw [stepHandler]
        cases hh : s.handlers with
        | nil => exact absurd hh hs
        | cons x xs =>
          cases x with
          | storing signal => exact ⟨_, rfl⟩
          | posting => exact ⟨_, rfl⟩
          | returned => simp [first, hh, Handler.isReturned] at here
      exact ⟨(), t, by rw [step, ht]; rfl, (handler_nearer ht).2 rfl⟩
    | _ => cases ha
  · by_cases there : s.main = .joining ∧ s.net.started = true
    · have helps : s.helpful = s.net.helpful := by rw [helpful, if_neg here, if_pos there]
      rw [helps]
      refine ⟨?_, ?_⟩
      · cases s.net with
        | reading => exact .inr (.inr (.inr rfl))
        | _ => exact .inr (.inr (.inl rfl))
      intro a ha
      cases a with
      | net ok =>
        have hstage := h.stage
        rw [Stage, there.1] at hstage
        obtain ⟨t, ht⟩ := net_moves ok hstage.2.2 there.2 ha.symm
        exact ⟨(), t, by rw [step, ht]; rfl, (net_nearer h ht).2 there.1⟩
      | ended last =>
        obtain ⟨t, ht⟩ := ended_moves last ha.symm
        exact ⟨(), t, by rw [step, ht]; rfl, (ended_nearer ht).2.2 there.1⟩
      | _ => cases hn : s.net <;> simp [hn, Net.helpful, Action.party] at ha
    · have helps : s.helpful = .main := by rw [helpful, if_neg here, if_neg there]
      rw [helps]
      refine ⟨.inl rfl, ?_⟩
      intro a ha
      cases a with
      | main ok =>
        obtain ⟨t, ht⟩ := main_moves ok h helps going
        exact ⟨(), t, by rw [step, ht]; rfl, (main_nearer h ht).2 helps⟩
      | _ => cases ha

end State

/-- Whose turns matter: of the handlers, that of the first signal; of the clients, that which `OnRun`
reads from, and its turn is the end of its connection. -/
def IsParty (p : Party) : Prop := p = .main ∨ p = .handler 0 ∨ p = .net ∨ p = .client

/-- Whatever the order in which `main`, the signal handlers and `OnRun` go on, whenever clients and
signals arrive and `sem_wait` is interrupted, every state is safe. And where each of the three has
its turn again and again, and each connection comes to its end (its client does not send for ever,
and takes what is sent to it), one signal is enough for `main` to return, after every accepted client
has been served to its end. -/
theorem application_stops (S : Execute.Storage σ) (conn : Conn σ) (schedule : Nat → Action) :
    (∀ n, (follow (State.step S) schedule (.start conn) n).Safe S conn) ∧
      (Fair Action.party IsParty schedule → (∃ n signal, schedule n = .signal signal) →
        ∃ n, let s := follow (State.step S) schedule (.start conn) n
          s.main = .returned ∨ s.main = .failed ∧ s.accepted = []) := by
  have inv := follow_inv (State.step S) (State.Inv S conn) (State.step_inv S conn) schedule _
    (State.start_inv S conn)
  refine ⟨fun n => (inv n).safe, ?_⟩
  rintro fair ⟨m, signal, hm⟩
  have delivered : (follow (State.step S) schedule (.start conn) (m + 1)).handlers ≠ [] := by
    simp only [follow, hm, State.step]
    simp
  obtain ⟨n, ⟨hn, -⟩, ended⟩ := fair_reaches_helpful (State.step S)
    (fun s => s.Inv S conn ∧ s.handlers ≠ []) (fun s => s.main.ended = true) State.rank
    State.helpful
    (fun a s u t h ht => ⟨State.step_inv S conn a s u t h.1 ht, State.delivered_step a u h.2 ht⟩)
    (fun a s u t h _ ht => State.step_nearer a u h.1 h.2 ht)
    (fun s h going => State.helpful_moves h.1 h.2 (Bool.eq_false_of_not_eq_true going))
    (fun k => schedule (m + 1 + k)) (fair.later (m + 1)) _ ⟨inv (m + 1), delivered⟩
  rw [← follow_add] at hn ended
  refine ⟨m + 1 + n, ?_⟩
  dsimp only
  have hstage := hn.stage
  rw [State.Stage] at hstage
  cases hmain : (follow (State.step S) schedule (.start conn) (m + 1 + n)).main with
  | returned => exact .inl rfl
  | failed =>
    rw [hmain] at hstage
    exact .inr ⟨rfl, hstage.2.2⟩
  | _ =>
    rw [hmain] at ended
    cases ended

/-- A client is accepted and asks for a key before the signal comes; then they go on in turn. -/
theorem application_stops_int :
    let before := [Action.main true, .main true, .arrive fun _ data => data.length, .net true,
      .net true, .read (text "get a\r\n"), .signal .int]
    let schedule : Nat → Action := fun n => before.getD n
      (if n % 4 = 0 then .main true else if n % 4 = 1 then .handler 0
        else if n % 4 = 2 then .net true else .ended none)
    let conn := Conn.create (some (Storage.SimpleLRU.create 64)) 0 false
    ∃ n, let s := follow (State.step Execute.simpleLRU) schedule (.start conn) n
      s.main = .returned ∨ s.main = .failed ∧ s.accepted = [] := by
  intro before schedule conn
  refine (application_stops _ _ schedule).2 ?_ ⟨6, .int, rfl⟩
  have turn : ∀ n, schedule (n + 8) =
      if n % 4 = 0 then .main true else if n % 4 = 1 then .handler 0
        else if n % 4 = 2 then .net true else .ended none := by
    intro n
    have same : (n + 8) % 4 = n % 4 := by omega
    simp [schedule, before, same]
  intro p hp n
  rcases hp with rfl | rfl | rfl | rfl
  · exact ⟨4 * n + 8, by omega, by rw [turn, if_pos (by omega)]; rfl⟩
  · exact ⟨4 * n + 1 + 8, by omega, by rw [turn, if_neg (by omega), if_pos (by omega)]; rfl⟩
  · refine ⟨4 * n + 2 + 8, by omega, ?_⟩
    rw [turn, if_neg (by omega), if_neg (by omega), if_pos (by omega)]
    rfl
  · refine ⟨4 * n + 3 + 8, by omega, ?_⟩
    rw [turn, if_neg (by omega), if_neg (by omega), if_neg (by omega)]
    rfl

end Sysprog.Application
