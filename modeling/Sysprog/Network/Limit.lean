import Sysprog.Network.MtBlocking
import Sysprog.Lib.Census

namespace Sysprog.Network.MTblocking

/-- What `_workers.size()` is compared with. -/
def Server.limit (s : Server) : Nat := (s.maxConnections % 2 ^ 64).toNat

/-- A connection thread that has not cleaned up yet. -/
def Thread.busy (th : Thread) : Bool := th.phase ≠ .done

/-- A connection thread in its loop. -/
def Thread.serving (th : Thread) : Bool := th.phase = .processing

def Thread.serves (fd : Nat) (th : Thread) : Bool := th = ⟨fd, .processing⟩

/-- The thread that is started and not emplaced yet. -/
def Acceptor.starting : Acceptor → Nat
  | started _ _ => 1
  | _ => 0

/-- How often `OnRun` holds a descriptor. -/
def Acceptor.holds (fd : Nat) : Acceptor → Nat
  | accepted fd' => if fd' = fd then 1 else 0
  | _ => 0

/-- `_workers` never grows over its limit, it has an entry for each thread that is still busy, and
the descriptors that are open are exactly those that a thread or `OnRun` has still to close. -/
structure Bounded (s : Server) : Prop where
  workers : s.workers.length + s.acceptor.starting = s.threads.countP Thread.busy
  limit : s.threads.countP Thread.busy ≤ s.limit
  opened : ∀ fd, s.opened.count fd = s.threads.countP (Thread.serves fd) + s.acceptor.holds fd
  length : s.opened.length = s.threads.countP Thread.serving + s.acceptor.inHand.toNat
  nodup : s.opened.Nodup

namespace Bounded

variable {s : Server} {t fd : Nat}

theorem start (maxConnections : Int) : Bounded (.start maxConnections) :=
  ⟨rfl, Nat.zero_le _, fun _ => rfl, rfl, List.nodup_nil⟩

/-- `OnRun` goes on without a descriptor. -/
theorem idle (h : Bounded s) {a : Acceptor} (hs : s.acceptor.starting = 0)
    (hh : s.acceptor.inHand = false) (ha : a.starting = 0) (hi : a.inHand = false) :
    Bounded { s with acceptor := a } := by
  have holds {b : Acceptor} (hb : b.inHand = false) (fd : Nat) : b.holds fd = 0 := by
    cases b with
    | accepted => cases hb
    | checking | accepting | started | done => rfl
  refine ⟨?_, h.limit, ?_, ?_, h.nodup⟩
  · have hw := h.workers
    rw [hs] at hw
    rwa [ha]
  · intro fd
    have ho := h.opened fd
    rw [holds hh] at ho
    rwa [holds hi]
  · have hl := h.length
    rw [hh] at hl
    rwa [hi]

theorem accept (h : Bounded s) (ha : s.acceptor = .accepting) (hfd : fd ∉ s.opened) :
    Bounded { s with acceptor := .accepted fd, opened := fd :: s.opened } := by
  obtain ⟨hw, hlimit, ho, hl, hn⟩ := h
  simp only [ha, Acceptor.starting, Acceptor.holds, Acceptor.inHand, Bool.toNat_false,
    Nat.add_zero] at hw ho hl
  refine ⟨hw, hlimit, ?_, ?_, List.nodup_cons.mpr ⟨hfd, hn⟩⟩
  · intro fd'
    simp only [List.count_cons, ho, Acceptor.holds, beq_iff_eq]
  · simp [hl, Acceptor.inHand]

/-- The descriptor in hand is closed, or its thread takes it over. -/
theorem lock (h : Bounded s) (htable : Table s) (ha : s.acceptor = .accepted fd) :
    Bounded (s.lockAcceptor fd) := by
  obtain ⟨hopen, -⟩ := htable.accepted fd ha
  obtain ⟨hw, hlimit, ho, hl, hn⟩ := h
  simp only [ha, Acceptor.starting, Acceptor.holds, Acceptor.inHand, Bool.toNat_true,
    Nat.add_zero] at hw ho hl
  unfold Server.lockAcceptor
  split_ifs with hfull
  · refine ⟨hw, hlimit, ?_, ?_, hn.erase fd⟩
    · intro fd'
      have hfd := ho fd'
      rw [List.count_erase, hfd]
      simp only [Acceptor.holds, beq_iff_eq]
      split_ifs <;> omega
    · rw [List.length_erase_of_mem hopen, hl]
      rfl
  · have hroom : s.threads.countP Thread.busy < s.limit := by
      simpa [Server.full, Server.limit, hw] using hfull
    refine ⟨?_, ?_, ?_, ?_, hn⟩
    · rw [countP_push, ← hw]
      rfl
    · rw [countP_push]
      exact hroom
    · intro fd'
      rw [countP_push, ho fd']
      simp [Acceptor.holds, Thread.serves, Bool.toNat, Bool.cond_decide]
    · rw [countP_push, hl]
      rfl

theorem emplace (h : Bounded s) (ha : s.acceptor = .started fd t) :
    Bounded { s with workers := s.workers ++ [(fd, t)], acceptor := .checking } := by
  obtain ⟨hw, hlimit, ho, hl, hn⟩ := h
  simp only [ha, Acceptor.starting, Acceptor.holds, Acceptor.inHand] at hw ho hl
  exact ⟨by simpa [Acceptor.starting] using hw, hlimit, ho, hl, hn⟩

theorem close (h : Bounded s) (htable : Table s) (ht : s.threads[t]? = some ⟨fd, .processing⟩) :
    Bounded (s.close t fd) := by
  obtain ⟨hw, hlimit, ho, hl, hn⟩ := h
  have hbusy : (s.threads.set t ⟨fd, .closed⟩).countP Thread.busy + 1 =
      s.threads.countP Thread.busy + 1 := countP_set_add ht ⟨fd, .closed⟩ Thread.busy
  have hserving : (s.threads.set t ⟨fd, .closed⟩).countP Thread.serving + 1 =
      s.threads.countP Thread.serving := countP_set_add ht ⟨fd, .closed⟩ Thread.serving
  have hsame := Nat.add_right_cancel hbusy
  refine ⟨hw.trans hsame.symm, hsame.trans_le hlimit, ?_, ?_, hn.erase fd⟩
  · intro fd'
    have hserves := countP_set_add ht ⟨fd, .closed⟩ (Thread.serves fd')
    have hcount := ho fd'
    simp only [Thread.serves, Thread.mk.injEq, and_true, reduceCtorEq, and_false, decide_false,
      Bool.toNat_false, Nat.add_zero] at hserves hcount
    simp only [Server.close, List.count_erase, beq_iff_eq]
    by_cases hfd : fd = fd'
    · simp only [hfd, decide_true, Bool.toNat_true, if_true] at hserves ⊢
      omega
    · simp only [hfd, decide_false, Bool.toNat_false, if_false] at hserves ⊢
      omega
  · simp only [Server.close]
    rw [List.length_erase_of_mem (htable.opened t fd ht)]
    omega

theorem cleanup (h : Bounded s) (htable : Table s) (ht : s.threads[t]? = some ⟨fd, .closed⟩)
    (hs : s.Unlocked) :
    Bounded { s with
      threads := s.threads.set t ⟨fd, .done⟩
      workers := s.workers.filter fun w => w.1 ≠ fd } := by
  obtain ⟨hw, hlimit, ho, hl, hn⟩ := h
  have hmine : (fd, t) ∈ s.workers := (htable.entry fd t).mpr ⟨⟨.closed, ht, by decide⟩, hs fd t⟩
  have hone : (s.workers.filter fun w => w.1 ≠ fd).length + 1 = s.workers.length := by
    have hkey : (s.workers.map Prod.fst).count fd = 1 :=
      List.count_eq_one_of_mem htable.keys (List.mem_map.mpr ⟨(fd, t), hmine, rfl⟩)
    rw [List.count, List.countP_map] at hkey
    have hsplit := List.length_eq_countP_add_countP (fun w : Nat × Nat => w.1 == fd) (l := s.workers)
    have hrest : (s.workers.filter fun w => w.1 ≠ fd).length =
        s.workers.countP fun w => ¬ (w.1 == fd) = true := by
      rw [List.countP_eq_length_filter]
      congr 2
      funext w
      simp
    have hkey' : (s.workers.countP fun w : Nat × Nat => w.1 == fd) = 1 := hkey
    omega
  have hbusy : (s.threads.set t ⟨fd, .done⟩).countP Thread.busy + 1 =
      s.threads.countP Thread.busy := countP_set_add ht ⟨fd, .done⟩ Thread.busy
  have hserving : (s.threads.set t ⟨fd, .done⟩).countP Thread.serving =
      s.threads.countP Thread.serving := countP_set_add ht ⟨fd, .done⟩ Thread.serving
  refine ⟨?_, ?_, ?_, ?_, hn⟩
  · dsimp only
    omega
  · exact (Nat.le_of_succ_le hbusy.le).trans hlimit
  · intro fd'
    have hserves : (s.threads.set t ⟨fd, .done⟩).countP (Thread.serves fd') =
        s.threads.countP (Thread.serves fd') := by
      have hset := countP_set_add ht ⟨fd, .done⟩ (Thread.serves fd')
      simpa [Thread.serves] using hset
    exact (ho fd').trans (congrArg (· + _) hserves.symm)
  · exact hl.trans (congrArg (· + _) hserving.symm)

/-- One step, also the one that ends the process. -/
theorem moves {a : Action} {b : Observed} {s' : Server} (h : Bounded s) (htable : Table s)
    (hm : s.Moves a b s') : Bounded s' := by
  have same {s' : Server} (hw : s'.workers = s.workers) (ha : s'.acceptor = s.acceptor)
      (ht : s'.threads = s.threads) (ho : s'.opened = s.opened)
      (hx : s'.maxConnections = s.maxConnections) : Bounded s' := by
    refine ⟨?_, ?_, ?_, ?_, ?_⟩
    · rw [hw, ha, ht]
      exact h.workers
    · rw [ht, Server.limit, hx]
      exact h.limit
    · rw [ho, ht, ha]
      exact h.opened
    · rw [ho, ht, ha]
      exact h.length
    · rw [ho]
      exact h.nodup
  cases hm with
  | running ha =>
    apply h.idle (by rw [ha]; rfl) (by rw [ha]; rfl)
    · split_ifs <;> rfl
    · split_ifs <;> rfl
  | refused ha => exact h.idle (by rw [ha]; rfl) (by rw [ha]; rfl) rfl rfl
  | accept ha _ hfd => exact h.accept ha hfd
  | lock ha => exact h.lock htable ha
  | emplace ha =>
    unfold Server.emplace
    split_ifs
    · exact same rfl rfl rfl rfl rfl
    · exact h.emplace ha
  | close ht => exact h.close htable ht
  | cleanup ht hs =>
    unfold Server.cleanup
    split
    · exact same rfl rfl rfl rfl rfl
    · exact h.cleanup htable ht hs
  | stop | shutdown | shutdownWorkers | joinWorkers | joinThread => exact same rfl rfl rfl rfl rfl

end Bounded

theorem Server.Moves.maxConnections_eq {s s' : Server} {a : Action} {b : Observed}
    (hm : s.Moves a b s') : s'.maxConnections = s.maxConnections := by
  cases hm with
  | lock ha =>
    unfold Server.lockAcceptor
    split_ifs <;> rfl
  | emplace ha =>
    unfold Server.emplace
    split_ifs <;> rfl
  | cleanup ht hs =>
    unfold Server.cleanup
    split <;> rfl
  | _ => rfl

/-- Whatever the threads do, the ones that are not through are never more than `_max_connections`,
read as an unsigned number, nor are the entries of `_workers`; at most one more descriptor is open,
and each open descriptor has exactly one thread that is still to close it, a closed one none. -/
theorem connections_limited (maxConnections : Int) (actions : List Action) (bs : List Observed)
    (s : Server) (hr : run Server.step actions (.start maxConnections) = some (bs, s)) :
    s.workers.length ≤ (maxConnections % 2 ^ 64).toNat ∧
    s.threads.countP Thread.busy ≤ (maxConnections % 2 ^ 64).toNat ∧
    s.opened.length ≤ (maxConnections % 2 ^ 64).toNat + 1 ∧ s.opened.Nodup ∧
    ∀ fd, s.threads.countP (Thread.serves fd) + s.acceptor.holds fd =
      if fd ∈ s.opened then 1 else 0 := by
  obtain ⟨-, h, hmax⟩ := run_invariant Server.step (fun _ _ => True)
    (fun s => (s.terminated = false → Table s) ∧ Bounded s ∧ s.maxConnections = maxConnections)
    (fun a s b t hi _ hstep => by
      obtain ⟨hterm, hm⟩ := Server.moves_of_step hstep
      have htable := hi.1 hterm
      exact ⟨(htable.moves hterm hm).1, hi.2.1.moves htable hm,
        hm.maxConnections_eq.trans hi.2.2⟩)
    actions _ s bs ⟨fun _ => Table.start maxConnections, Bounded.start maxConnections, rfl⟩
    (AllSteps.of_forall (fun _ _ _ => trivial) _) hr
  have hbusy : s.threads.countP Thread.busy ≤ (maxConnections % 2 ^ 64).toNat := hmax ▸ h.limit
  refine ⟨(Nat.le_add_right _ _).trans (h.workers.trans_le hbusy), hbusy, ?_, h.nodup, ?_⟩
  · have hserving : s.threads.countP Thread.serving ≤ s.threads.countP Thread.busy := by
      apply List.countP_mono_left
      intro th _ hs
      simp only [Thread.serving, decide_eq_true_eq] at hs
      simp [Thread.busy, hs]
    have hhand := Bool.toNat_le s.acceptor.inHand
    rw [h.length]
    omega
  · intro fd
    rw [← h.opened fd]
    exact h.nodup.count

/-- One connection is allowed: the second one is closed right after it was accepted. -/
theorem connections_limited_one :
    let actions : List Action := [.running, .accept (some 5), .lock, .emplace, .running,
      .accept (some 6), .lock, .running, .close 0, .accept (some 5)]
    ∃ bs s, run Server.step actions (.start 1) = some (bs, s) ∧
      s.workers.length ≤ (1 % 2 ^ 64 : Int).toNat ∧
      s.threads.countP Thread.busy ≤ (1 % 2 ^ 64 : Int).toNat ∧
      s.opened.length ≤ (1 % 2 ^ 64 : Int).toNat + 1 ∧ s.opened.Nodup ∧
      ∀ fd, s.threads.countP (Thread.serves fd) + s.acceptor.holds fd =
        if fd ∈ s.opened then 1 else 0 := by
  intro actions
  exact ⟨_, _, rfl, connections_limited 1 actions _ _ rfl⟩

end Sysprog.Network.MTblocking
