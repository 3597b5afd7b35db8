import Sysprog.Lib.Progress
import Sysprog.Network.MtThreads

namespace Sysprog.Network.MTblocking

inductive Party where
  | main
  | acceptor
  | thread (t : Nat)
  /-- The client that a thread sends to. -/
  | client (t : Nat)
  | kernel
  deriving DecidableEq

def Turn.party : Turn → Party
  | main => .main
  | acceptor _ => .acceptor
  | thread t _ _ => .thread t
  | sent t _ => .client t
  | wake => .kernel

def Phase.rank : Phase → Nat
  | processing => 2
  | closed => 1
  | done => 0

/-- How far a thread is from its `close` when `running` is false. -/
def Loop.rank : Loop → Nat
  | reading => 4
  | handling _ => 3
  | sending _ => 2
  | checking => 1
  | leaving => 0

/-- The same for `OnRun`, with the thread it may still start. -/
def Acceptor.rank : Acceptor → Nat
  | accepting => 7
  | accepted _ => 6
  | started _ _ => 2
  | checking => 1
  | done => 0

def Main.rank : Main → Nat
  | serving => 5
  | stopping => 4
  | shutdown => 3
  | stopped => 2
  | joining => 1
  | returned => 0

namespace Process

variable {p q : Process}

/-- What `OnRun` and the connection threads have before them. -/
def work (p : Process) : Nat :=
  (p.server.threads.map fun th => th.phase.rank).sum + (p.loops.map Loop.rank).sum +
    p.server.acceptor.rank

def rank (p : Process) : Nat ×ₗ Nat :=
  toLex (p.server.main.rank + if p.server.terminated then 0 else 1,
    if p.server.running then 0 else p.work)

/-- Who lets a thread go on. -/
def ofThread (p : Process) (t : Nat) : Party :=
  match p.server.threads[t]?, p.loops[t]? with
  | some ⟨_, .processing⟩, some (.sending _) => .client t
  | _, _ => .thread t

theorem sending_of_ofThread {t : Nat} (h : p.ofThread t = .client t) : ∃ fd passes,
    p.server.threads[t]? = some ⟨fd, .processing⟩ ∧ p.loops[t]? = some (.sending passes) := by
  unfold ofThread at h
  split at h
  · exact ⟨_, _, by assumption, by assumption⟩
  · cases h

theorem ofThread_cases (p : Process) (t : Nat) :
    p.ofThread t = .thread t ∨ p.ofThread t = .client t := by
  unfold ofThread
  split
  · exact .inr rfl
  · exact .inl rfl

theorem ofThread_ne_main (p : Process) (t : Nat) : p.ofThread t ≠ .main := by
  rcases ofThread_cases p t with own | own <;> simp [own]

theorem ofThread_of_sending {t fd passes : Nat}
    (ht : p.server.threads[t]? = some ⟨fd, .processing⟩)
    (hl : p.loops[t]? = some (.sending passes)) : p.ofThread t = .client t := by
  rw [ofThread, ht, hl]

/-- Who brings the return of `Join` nearer: whoever holds the mutex that `main` waits for, or the
thread of the first entry of the table. -/
def helpful (p : Process) : Party :=
  match p.server.main with
  | .serving | .stopping | .returned => .main
  | .shutdown => if p.server.Unlocked then .main else .acceptor
  | .stopped =>
    if p.server.Unlocked then
      match p.server.workers with
      | [] => .main
      | (_, t) :: _ => p.ofThread t
    else .acceptor
  | .joining => if p.server.acceptor = .done then .main else .acceptor

theorem rank_lt_of_main {m n : Main} (hp : p.server.terminated = false)
    (before : p.server.main = m) (after : q.server.main = n) (lt : n.rank < m.rank) :
    q.rank < p.rank := by
  apply Prod.Lex.toLex_lt_toLex.mpr
  left
  rw [hp, before, after]
  simp only [Bool.false_eq_true, if_false]
  split_ifs <;> omega

/-- What `OnRun` and the connection threads do counts only once `running` is false. -/
theorem nearer_of_work (h : Inv p) (hp : p.server.terminated = false)
    (main : q.server.main = p.server.main) (running : q.server.running = p.server.running)
    (lower : p.server.running = false → q.server.terminated = true ∨ q.work < p.work) :
    Nearer rank helpful p q ∧ (p.server.main ≠ .serving → q.rank < p.rank) := by
  have gone : q.server.terminated = true → q.rank < p.rank := by
    intro hq
    apply Prod.Lex.toLex_lt_toLex.mpr
    left
    rw [main, hp, hq]
    exact Nat.lt_succ_self _
  by_cases serving : p.server.main = .serving
  · refine ⟨?_, fun ne => absurd serving ne⟩
    cases hq : q.server.terminated with
    | true => exact .inl (gone hq)
    | false =>
      right
      have on := h.running.mpr serving
      simp only [rank, helpful, main, running, on, hp, hq, serving, if_true, and_self]
  · have off : p.server.running = false := by
      apply Bool.eq_false_of_not_eq_true
      exact fun on => serving (h.running.mp on)
    have lt : q.rank < p.rank := by
      cases hq : q.server.terminated with
      | true => exact gone hq
      | false =>
        have less := (lower off).resolve_left (by simp [hq])
        apply Prod.Lex.toLex_lt_toLex.mpr
        right
        simp only [main, running, off, hp, hq, Bool.false_eq_true, if_false]
        exact ⟨trivial, less⟩
    exact ⟨.inl lt, fun _ => lt⟩

theorem acceptor_nearer {result : Accept} (h : Inv p) (hp : p.server.terminated = false)
    (hstep : p.stepAcceptor result = some q) :
    Nearer rank helpful p q ∧ (p.server.main ≠ .serving → q.rank < p.rank) := by
  unfold stepAcceptor at hstep
  cases ha : p.server.acceptor with
  | checking =>
    simp only [ha] at hstep
    obtain ⟨b, s, -, hm, rfl⟩ := moves_of_lift hstep
    cases hm
    refine nearer_of_work h hp rfl rfl ?_
    intro off
    right
    simp [work, ha, off, Acceptor.rank]
  | accepting =>
    have one : ∀ r, p.lift (.accept r) id = some q →
        Nearer rank helpful p q ∧ (p.server.main ≠ .serving → q.rank < p.rank) := by
      intro r hr
      obtain ⟨b, s, -, hm, rfl⟩ := moves_of_lift hr
      cases hm with
      | refused | accept =>
        refine nearer_of_work h hp rfl rfl ?_
        intro _
        right
        simp [work, ha, Acceptor.rank]
    simp only [ha] at hstep
    split_ifs at hstep
    · cases result with
      | blocks => cases hstep
      | fails => exact one _ hstep
      | returns fd => exact one _ hstep
    · exact one _ hstep
  | accepted fd =>
    simp only [ha] at hstep
    obtain ⟨b, s, -, hm, rfl⟩ := moves_of_lift hstep
    cases hm with
    | lock ha' =>
      rw [ha] at ha'
      cases ha'
      by_cases full : p.server.full = true
      · simp only [Server.lockAcceptor, full, if_true]
        refine nearer_of_work h hp rfl rfl ?_
        intro _
        right
        simp [work, ha, Acceptor.rank]
      · simp only [Server.lockAcceptor, full, if_false, Bool.false_eq_true]
        refine nearer_of_work h hp rfl rfl ?_
        intro _
        right
        simp only [work, ha, Acceptor.rank, List.map_append, List.map_cons, List.map_nil,
          List.sum_append, List.sum_cons, List.sum_nil, Phase.rank, Loop.rank]
        omega
  | started fd t =>
    simp only [ha] at hstep
    obtain ⟨b, s, -, hm, rfl⟩ := moves_of_lift hstep
    cases hm with
    | @emplace fd t ha' =>
      simp only [Server.emplace]
      split_ifs
      · exact nearer_of_work h hp rfl rfl fun _ => .inl rfl
      · refine nearer_of_work h hp rfl rfl ?_
        intro _
        right
        simp [work, ha, Acceptor.rank]
  | done => simp [ha] at hstep

theorem goto_work {t : Nat} {loop next : Loop} (hl : p.loops[t]? = some loop)
    (lt : next.rank < loop.rank) : (p.goto t next).work < p.work := by
  have change := sum_set_add hl next Loop.rank
  simp only [work, goto]
  omega

theorem goto_nearer {t : Nat} {loop next : Loop} (h : Inv p) (hp : p.server.terminated = false)
    (hl : p.loops[t]? = some loop) (lt : p.server.running = false → next.rank < loop.rank) :
    Nearer rank helpful p (p.goto t next) ∧
      (p.server.main ≠ .serving → (p.goto t next).rank < p.rank) :=
  nearer_of_work h hp rfl rfl fun off => .inr (goto_work hl (lt off))

/-- Once `running` is false, no pass follows another. -/
theorem passed_nearer {t : Nat} {loop : Loop} (h : Inv p) (hp : p.server.terminated = false)
    (hl : p.loops[t]? = some loop) (lt : Loop.rank .checking < loop.rank) (passes : Nat) :
    Nearer rank helpful p (p.passed t passes) ∧
      (p.server.main ≠ .serving → (p.passed t passes).rank < p.rank) := by
  apply goto_nearer h hp hl
  intro off
  rw [if_neg (by simp [off])]
  exact lt

theorem loop_nearer {t fd : Nat} {result : Read} {pass : Pass} {loop : Loop} (h : Inv p)
    (hp : p.server.terminated = false)
    (ht : p.server.threads[t]? = some ⟨fd, .processing⟩) (hl : p.loops[t]? = some loop)
    (hstep : p.stepLoop t fd result pass loop = some q) :
    Nearer rank helpful p q ∧ (p.server.main ≠ .serving → q.rank < p.rank) := by
  cases loop with
  | checking =>
    cases hstep
    apply goto_nearer h hp hl
    intro off
    rw [if_neg (by simp [off])]
    decide
  | reading =>
    cases result with
    | blocks =>
      simp only [stepLoop] at hstep
      split_ifs at hstep
      cases hstep
      exact goto_nearer h hp hl fun _ => by decide
    | returns passes =>
      cases hstep
      exact goto_nearer h hp hl fun _ => by simp [Loop.rank]
    | ends =>
      cases hstep
      exact goto_nearer h hp hl fun _ => by decide
  | handling passes =>
    cases pass with
    | next =>
      cases hstep
      exact passed_nearer h hp hl (by simp [Loop.rank]) passes
    | send =>
      cases hstep
      exact goto_nearer h hp hl fun _ => by simp [Loop.rank]
    | throw =>
      cases hstep
      exact goto_nearer h hp hl fun _ => by simp [Loop.rank]
  | sending passes => cases hstep
  | leaving =>
    obtain ⟨b, s, -, hm, rfl⟩ := moves_of_lift hstep
    cases hm with
    | close ht' =>
      rw [ht] at ht'
      cases ht'
      refine nearer_of_work h hp rfl rfl ?_
      intro _
      right
      have change := sum_set_add ht ⟨fd, .closed⟩ fun th => th.phase.rank
      simp only [work, Server.close, id, Phase.rank] at change ⊢
      omega

theorem sent_nearer {t : Nat} {ok : Bool} (h : Inv p) (hp : p.server.terminated = false)
    (hstep : p.stepSent t ok = some q) :
    Nearer rank helpful p q ∧ (p.server.main ≠ .serving → q.rank < p.rank) := by
  unfold stepSent at hstep
  split at hstep
  · cases ok with
    | true =>
      cases hstep
      exact passed_nearer h hp (by assumption) (by simp [Loop.rank]) _
    | false =>
      cases hstep
      exact goto_nearer h hp (by assumption) fun _ => by simp [Loop.rank]
  · cases hstep

theorem thread_nearer {t : Nat} {result : Read} {pass : Pass} (h : Inv p)
    (hp : p.server.terminated = false) (hstep : p.stepThread t result pass = some q) :
    Nearer rank helpful p q ∧ (p.server.main ≠ .serving → q.rank < p.rank) := by
  unfold stepThread at hstep
  split at hstep
  · exact loop_nearer h hp (by assumption) (by assumption) hstep
  · obtain ⟨b, s, -, hm, rfl⟩ := moves_of_lift hstep
    cases hm with
    | @cleanup fd _ ht hu =>
      have own := (h.table hp).lookup (((h.table hp).entry fd t).mpr
        ⟨⟨.closed, ht, by decide⟩, hu fd t⟩)
      simp only [Server.cleanup, own]
      refine nearer_of_work h hp rfl rfl ?_
      intro _
      right
      have change := sum_set_add ht ⟨fd, .done⟩ fun th => th.phase.rank
      simp only [work, Phase.rank] at change ⊢
      omega
  · cases hstep

theorem main_nearer (hp : p.server.terminated = false) (hstep : p.stepMain = some q) :
    Nearer rank helpful p q ∧ (p.helpful = .main → q.rank < p.rank) := by
  have lower : q.rank < p.rank → Nearer rank helpful p q ∧ (p.helpful = .main → q.rank < p.rank) :=
    fun lt => ⟨.inl lt, fun _ => lt⟩
  unfold stepMain at hstep
  cases hmain : p.server.main with
  | serving | stopping | shutdown | joining =>
    simp only [hmain] at hstep
    obtain ⟨b, s, -, hm, rfl⟩ := moves_of_lift hstep
    cases hm
    exact lower (rank_lt_of_main hp hmain rfl (by simp [Main.rank]))
  | stopped =>
    simp only [hmain] at hstep
    split_ifs at hstep
    obtain ⟨b, s, -, hm, rfl⟩ := moves_of_lift hstep
    cases hm with
    | joinWorkers _ unlocked =>
      by_cases hw : p.server.workers = []
      · exact lower (rank_lt_of_main hp hmain (if_pos hw) (by decide))
      · have same : { p.server with main := if p.server.workers = [] then .joining else .stopped } =
            p.server := by
          rw [if_neg hw, ← hmain]
        rw [same]
        refine ⟨.inr ⟨rfl, rfl⟩, ?_⟩
        cases hw' : p.server.workers with
        | nil => exact absurd hw' hw
        | cons w ws =>
          intro helps
          simp only [helpful, hmain, hw', unlocked, if_true] at helps
          exact absurd helps (ofThread_ne_main p w.2)
  | returned => simp [hmain] at hstep

theorem step_inv (turn : Turn) (p : Process) (u : Unit) (q : Process) (h : Inv p)
    (hstep : step turn p = some (u, q)) : Inv q := by
  obtain ⟨hp, moved⟩ := moves_of_step hstep
  cases moved with
  | main hq => exact main_inv h hp hq
  | acceptor hq => exact acceptor_inv h hq
  | thread hq => exact thread_inv h hq
  | sent hq => exact sent_inv h hq
  | wake => exact ⟨h.table, h.loops, h.running, h.socket, by simp, h.swept⟩

theorem step_nearer (turn : Turn) (u : Unit) (h : Inv p) (hstep : step turn p = some (u, q)) :
    Nearer rank helpful p q := by
  obtain ⟨hp, moved⟩ := moves_of_step hstep
  cases moved with
  | main hq => exact (main_nearer hp hq).1
  | acceptor hq => exact (acceptor_nearer h hp hq).1
  | thread hq => exact (thread_nearer h hp hq).1
  | sent hq => exact (sent_nearer h hp hq).1
  -- sleeping or not, `Join` is as far as before
  | wake => exact .inr ⟨rfl, rfl⟩

/-- `OnRun` is never blocked once the server socket is shut. -/
theorem acceptor_moves (result : Accept) (hp : p.server.terminated = false)
    (shut : p.server.serverSocket = false) (going : p.server.acceptor ≠ .done) :
    ∃ q, p.stepAcceptor result = some q := by
  unfold stepAcceptor
  cases ha : p.server.acceptor with
  | checking | accepted | started =>
    simp only [lift, Server.step, hp, Server.advance, ha]
    exact ⟨_, rfl⟩
  | accepting =>
    simp only [lift, Server.step, hp, Server.advance, ha, shut]
    exact ⟨_, rfl⟩
  | done => exact absurd ha going

/-- Nor is the thread of an entry of the table, once `Stop` has gone through it, but for `send`. -/
theorem thread_moves (result : Read) (pass : Pass) (h : Inv p) (hp : p.server.terminated = false)
    (swept : Swept p.server.main) (unlocked : p.server.Unlocked) {t fd : Nat}
    (pending : Pending p.server.threads t fd) (own : p.ofThread t = .thread t) :
    ∃ q, p.stepThread t result pass = some q := by
  obtain ⟨phase, ht, going⟩ := pending
  have here : t < p.loops.length := by
    rw [h.loops]
    exact (List.getElem?_eq_some_iff.mp ht).1
  unfold stepThread
  cases phase with
  | processing =>
    rw [ht, List.getElem?_eq_getElem here]
    dsimp only
    cases hl : p.loops[t] with
    | checking => exact ⟨_, rfl⟩
    | reading =>
      cases result with
      | blocks =>
        have read : p.loops[t]? = some .reading := by rw [List.getElem?_eq_getElem here, hl]
        exact ⟨_, if_pos (h.swept swept t fd ht read)⟩
      | returns | ends => exact ⟨_, rfl⟩
    | handling passes => cases pass <;> exact ⟨_, rfl⟩
    | sending passes =>
      have sends : p.loops[t]? = some (.sending passes) := by
        rw [List.getElem?_eq_getElem here, hl]
      rw [ofThread_of_sending ht sends] at own
      cases own
    | leaving =>
      simp only [stepLoop, lift, Server.step, hp, Server.advance, ht]
      exact ⟨_, rfl⟩
  | closed =>
    rw [ht]
    simp only [lift, Server.step, hp, Server.advance, ht, unlocked, if_true]
    exact ⟨_, rfl⟩
  | done => exact absurd rfl going

theorem sent_moves (ok : Bool) {t : Nat} (own : p.ofThread t = .client t) :
    ∃ q, p.stepSent t ok = some q := by
  obtain ⟨fd, passes, ht, hl⟩ := sending_of_ofThread own
  exact ⟨_, by rw [stepSent, ht, hl]⟩

theorem main_moves (h : Inv p) (hp : p.server.terminated = false) (helps : p.helpful = .main)
    (going : p.server.main ≠ .returned) : ∃ q, p.stepMain = some q := by
  unfold stepMain
  unfold helpful at helps
  cases hmain : p.server.main with
  | serving | stopping =>
    simp only [lift, Server.step, hp, Server.advance, hmain]
    exact ⟨_, rfl⟩
  | shutdown =>
    simp only [hmain] at helps
    split_ifs at helps with unlocked
    simp only [lift, Server.step, hp, Server.advance, hmain, unlocked, and_self, if_true]
    exact ⟨_, rfl⟩
  | stopped =>
    simp only [hmain] at helps
    split_ifs at helps with unlocked
    cases hw : p.server.workers with
    | cons w ws =>
      simp only [hw] at helps
      exact absurd helps (ofThread_ne_main p w.2)
    | nil =>
      have awake : p.sleeping = false := by
        apply Bool.eq_false_of_not_eq_true
        exact fun asleep => (h.asleep asleep).2 hw
      simp only [awake, lift, Server.step, hp, Server.advance, hmain, unlocked, and_self, if_true]
      exact ⟨_, rfl⟩
  | joining =>
    simp only [hmain] at helps
    split_ifs at helps with done
    simp only [lift, Server.step, hp, Server.advance, hmain, done, and_self, if_true]
    exact ⟨_, rfl⟩
  | returned => exact absurd hmain going

/-- Who helps, and what `main` waits for then. -/
theorem helpful_cases (h : Inv p) (hp : p.server.terminated = false) :
    p.helpful = .main ∨
    p.helpful = .acceptor ∧ p.server.serverSocket = false ∧ p.server.main ≠ .serving ∧
      p.server.acceptor ≠ .done ∨
    ∃ t fd, p.helpful = p.ofThread t ∧ p.server.main = .stopped ∧ p.server.Unlocked ∧
      Pending p.server.threads t fd := by
  have locked : ¬ p.server.Unlocked → p.server.acceptor ≠ .done := by
    intro locked done
    apply locked
    simp [Server.Unlocked, done]
  have shut : p.server.main ≠ .serving → p.server.main ≠ .stopping →
      p.server.serverSocket = false := by
    intro serving stopping
    apply Bool.eq_false_of_not_eq_true
    intro on
    rcases h.socket.mp on with hm | hm
    · exact serving hm
    · exact stopping hm
  cases hmain : p.server.main with
  | serving | stopping | returned => exact .inl (by simp [helpful, hmain])
  | shutdown =>
    by_cases unlocked : p.server.Unlocked
    · exact .inl (by simp [helpful, hmain, unlocked])
    · have helps : p.helpful = .acceptor := by simp [helpful, hmain, unlocked]
      exact .inr (.inl ⟨helps, shut (by simp [hmain]) (by simp [hmain]), by simp, locked unlocked⟩)
  | stopped =>
    by_cases unlocked : p.server.Unlocked
    · cases hw : p.server.workers with
      | nil => exact .inl (by simp [helpful, hmain, unlocked, hw])
      | cons w ws =>
        obtain ⟨fd, t⟩ := w
        have entry : (fd, t) ∈ p.server.workers := by simp [hw]
        exact .inr (.inr ⟨t, fd, by simp [helpful, hmain, unlocked, hw], rfl, unlocked,
          (((h.table hp).entry fd t).mp entry).1⟩)
    · have helps : p.helpful = .acceptor := by simp [helpful, hmain, unlocked]
      exact .inr (.inl ⟨helps, shut (by simp [hmain]) (by simp [hmain]), by simp, locked unlocked⟩)
  | joining =>
    by_cases done : p.server.acceptor = .done
    · exact .inl (by simp [helpful, hmain, done])
    · have helps : p.helpful = .acceptor := by simp [helpful, hmain, done]
      exact .inr (.inl ⟨helps, shut (by simp [hmain]) (by simp [hmain]), by simp, done⟩)

theorem helpful_moves (h : Inv p) (hp : p.server.terminated = false)
    (going : p.server.main ≠ .returned) :
    p.helpful ≠ .kernel ∧ ∀ turn, Turn.party turn = p.helpful →
      ∃ u q, step turn p = some (u, q) ∧ q.rank < p.rank := by
  rcases helpful_cases h hp with helps | ⟨helps, shut, serving, busy⟩ |
    ⟨t, fd, helps, stopped, unlocked, pending⟩
  · rw [helps]
    refine ⟨by simp, ?_⟩
    intro turn hturn
    cases turn with
    | main =>
      obtain ⟨q, hq⟩ := main_moves h hp helps going
      exact ⟨(), q, by simp [step, hp, hq], (main_nearer hp hq).2 helps⟩
    | _ => cases hturn
  · rw [helps]
    refine ⟨by simp, ?_⟩
    intro turn hturn
    cases turn with
    | acceptor result =>
      obtain ⟨q, hq⟩ := acceptor_moves result hp shut busy
      exact ⟨(), q, by simp [step, hp, hq], (acceptor_nearer h hp hq).2 serving⟩
    | _ => cases hturn
  · rw [helps]
    rcases ofThread_cases p t with own | own
    · rw [own]
      refine ⟨by simp, ?_⟩
      intro turn hturn
      cases turn with
      | thread u result pass =>
        cases hturn
        obtain ⟨q, hq⟩ := thread_moves result pass h hp (.inl stopped) unlocked pending own
        exact ⟨(), q, by simp [step, hp, hq], (thread_nearer h hp hq).2 (by simp [stopped])⟩
      | _ => cases hturn
    · rw [own]
      refine ⟨by simp, ?_⟩
      intro turn hturn
      cases turn with
      | sent u ok =>
        cases hturn
        obtain ⟨q, hq⟩ := sent_moves ok own
        exact ⟨(), q, by simp [step, hp, hq], (sent_nearer h hp hq).2 (by simp [stopped])⟩
      | _ => cases hturn

theorem server_of_lift {a : Action} {f : Process → Process} (h : p.lift a f = some q)
    (hf : ∀ r, (f r).server = r.server) : ∃ a b, Server.step a p.server = some (b, q.server) := by
  simp only [lift, Option.map_eq_some_iff] at h
  obtain ⟨⟨b, server⟩, hs, rfl⟩ := h
  exact ⟨a, b, by rw [hs, hf]⟩

/-- Every step is one of the server, or none of its business. -/
theorem server_step (turn : Turn) (p : Process) (u : Unit) (q : Process)
    (hstep : step turn p = some (u, q)) :
    q.server = p.server ∨ ∃ a b, Server.step a p.server = some (b, q.server) := by
  obtain ⟨-, moved⟩ := moves_of_step hstep
  cases moved with
  | main hq =>
    right
    unfold stepMain at hq
    split at hq
    · exact server_of_lift hq fun _ => rfl
    · exact server_of_lift hq fun _ => rfl
    · exact server_of_lift hq fun _ => rfl
    · split_ifs at hq
      exact server_of_lift hq fun _ => rfl
    · exact server_of_lift hq fun _ => rfl
    · cases hq
  | acceptor hq =>
    right
    unfold stepAcceptor at hq
    split at hq
    · exact server_of_lift hq fun _ => rfl
    · split_ifs at hq
      · split at hq
        · cases hq
        · exact server_of_lift hq fun _ => rfl
        · exact server_of_lift hq fun _ => rfl
      · exact server_of_lift hq fun _ => rfl
    · apply server_of_lift hq
      intro r
      split <;> rfl
    · exact server_of_lift hq fun _ => rfl
    · cases hq
  | thread hq =>
    unfold stepThread at hq
    split at hq
    · rename_i loop _ _
      cases loop with
      | leaving => exact .inr (server_of_lift hq fun _ => rfl)
      | checking =>
        cases hq
        exact .inl rfl
      | reading =>
        left
        simp only [stepLoop] at hq
        split at hq
        · split_ifs at hq
          cases hq
          rfl
        · cases hq
          rfl
        · cases hq
          rfl
      | handling passes =>
        left
        simp only [stepLoop] at hq
        split at hq <;> cases hq <;> rfl
      | sending passes => cases hq
    · exact .inr (server_of_lift hq fun _ => rfl)
    · cases hq
  | @sent t ok q hq =>
    left
    unfold stepSent at hq
    split at hq
    · cases ok <;> cases hq <;> rfl
    · cases hq
  | wake => exact .inl rfl

end Process

/-- `Stop` and `Join` of a server with any number of connections, whatever the order of all steps:
each state is one of the server's own runs, and `Join` does not sleep when the table is empty. And
where `main`, `OnRun` and each connection thread have their turns again and again, and so have the
clients that a thread sends to, `Join` returns, unless the process is gone because a descriptor was
emplaced twice. The clients may leave their threads in `read` for ever, but not in `send`: they take
what is sent to them, or are gone. -/
theorem join_ends (maxConnections : Int) (schedule : Nat → Turn) :
    (∀ n, let p := follow Process.step schedule (.start maxConnections) n
      (∃ actions bs, run Server.step actions (.start maxConnections) = some (bs, p.server)) ∧
        (p.sleeping = true → p.server.workers ≠ [])) ∧
      (Fair Turn.party (· ≠ .kernel) schedule →
        ∃ n, let s := (follow Process.step schedule (.start maxConnections) n).server
          s.main = .returned ∨ s.terminated = true) := by
  have start := Process.start_inv maxConnections
  refine ⟨?_, ?_⟩
  · intro n
    have inv := follow_inv Process.step Process.Inv Process.step_inv schedule _ start n
    exact ⟨run_of_follow Process.server Process.server_step schedule (.start _) n,
      fun asleep => (inv.asleep asleep).2⟩
  · intro fair
    obtain ⟨n, -, ended⟩ := fair_reaches_helpful Process.step Process.Inv
      (fun p => p.server.main = .returned ∨ p.server.terminated = true) Process.rank
      Process.helpful Process.step_inv
      (fun turn p u q h _ hstep => Process.step_nearer turn u h hstep)
      (by
        intro p h bad
        rw [not_or] at bad
        exact Process.helpful_moves h (Bool.eq_false_of_not_eq_true bad.2) bad.1)
      schedule fair _ start
    exact ⟨n, ended⟩

/-- A client asks for something, takes the response after `Stop`, and sends nothing more. Then `main`,
`OnRun`, the threads and the clients go on. -/
theorem join_ends_silent :
    let before := [Turn.acceptor .blocks, .acceptor (.returns 5), .acceptor .blocks,
      .acceptor .blocks, .thread 0 .blocks .next, .thread 0 (.returns 2) .next,
      .thread 0 .blocks .send]
    let schedule : Nat → Turn := fun n => before.getD n
      (if n % 4 = 0 then .main else if n % 4 = 1 then .acceptor .blocks
        else if n % 4 = 2 then .thread (n / 4).unpair.1 .blocks .next
        else .sent (n / 4).unpair.1 true)
    ∃ n, let s := (follow Process.step schedule (.start 7) n).server
      s.main = .returned ∨ s.terminated = true := by
  intro before schedule
  apply (join_ends 7 schedule).2
  have turn : ∀ n, schedule (n + 8) = if n % 4 = 0 then .main else if n % 4 = 1 then
      .acceptor .blocks else if n % 4 = 2 then .thread (n / 4 + 2).unpair.1 .blocks .next
      else .sent (n / 4 + 2).unpair.1 true := by
    intro n
    have rest : (n + 8) % 4 = n % 4 := by omega
    have part : (n + 8) / 4 = n / 4 + 2 := by omega
    simp [schedule, before, rest, part]
  intro p hp n
  cases p with
  | main => exact ⟨4 * n + 8, by omega, by rw [turn, if_pos (by omega)]; rfl⟩
  | acceptor =>
    exact ⟨4 * n + 1 + 8, by omega, by rw [turn, if_neg (by omega), if_pos (by omega)]; rfl⟩
  | thread t =>
    have large : n + 2 ≤ Nat.pair t (n + 2) := Nat.right_le_pair t (n + 2)
    refine ⟨4 * (Nat.pair t (n + 2) - 2) + 2 + 8, by omega, ?_⟩
    have part : (4 * (Nat.pair t (n + 2) - 2) + 2) / 4 + 2 = Nat.pair t (n + 2) := by omega
    rw [turn, if_neg (by omega), if_neg (by omega), if_pos (by omega), part, Nat.unpair_pair]
    rfl
  | client t =>
    have large : n + 2 ≤ Nat.pair t (n + 2) := Nat.right_le_pair t (n + 2)
    refine ⟨4 * (Nat.pair t (n + 2) - 2) + 3 + 8, by omega, ?_⟩
    have part : (4 * (Nat.pair t (n + 2) - 2) + 3) / 4 + 2 = Nat.pair t (n + 2) := by omega
    rw [turn, if_neg (by omega), if_neg (by omega), if_neg (by omega), part, Nat.unpair_pair]
    rfl
  | kernel => exact absurd rfl hp

end Sysprog.Network.MTblocking
