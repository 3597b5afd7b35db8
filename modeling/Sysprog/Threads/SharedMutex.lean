import Mathlib.Data.Nat.Bitwise
import Sysprog.Lib.Census
import Sysprog.Lib.Progress

namespace Sysprog.Threads.SharedMutex

/-- `write_entered_`. -/
def writeEntered : UInt32 := (1 : UInt32) <<< 31

/-- `n_readers_`. -/
def nReaders : UInt32 := ~~~writeEntered

/-- Where a thread stands. What a method does while it holds `mut_` is one step, up to where it waits
at a gate or returns; a thread that is woken has to get `mut_` again. -/
inductive Pc where
  | outside
  /-- `lock`, before its first loop. -/
  | lock
  /-- `lock`, waiting at `gate1_`. -/
  | gate1
  /-- `lock`, waiting at `gate2_`. -/
  | gate2
  /-- `lock`, woken at `gate2_`. -/
  | lockAgain
  /-- Exclusive ownership. -/
  | writer
  /-- `unlock`, before its `notify_all`. -/
  | notify
  /-- `lock_shared`, before its loop. -/
  | lockShared
  /-- `lock_shared`, waiting at `gate1_`. -/
  | gate1Shared
  /-- Shared ownership. -/
  | reader
  deriving DecidableEq

namespace Pc

def atGate1 : Pc → Bool
  | gate1 | gate1Shared => true
  | _ => false

def atGate2 : Pc → Bool
  | gate2 => true
  | _ => false

/-- Where a thread goes on that is woken. -/
def woken : Pc → Pc
  | gate1 => lock
  | gate2 => lockAgain
  | gate1Shared => lockShared
  | pc => pc

end Pc

structure State where
  state : UInt32
  threads : List Pc
  deriving DecidableEq

inductive Action where
  /-- A call of `lock` or of `lock_shared`. -/
  | call (t : Nat) (shared : Bool)
  /-- Thread `t` has `mut_` in `lock` or `lock_shared`. -/
  | enter (t : Nat)
  /-- `try_lock` or `try_lock_shared`; `owns` is whether `mut_` was free. -/
  | tryLock (t : Nat) (shared owns : Bool)
  | unlock (t : Nat)
  | notifyAll (t : Nat)
  /-- `unlock_shared`, with the thread that its `notify_one` wakes. -/
  | unlockShared (t : Nat) (woken : Option Nat)
  /-- A thread leaves its gate without being notified. -/
  | spurious (t : Nat)
  deriving DecidableEq

namespace State

def initial (n : Nat) : State := ⟨0, List.replicate n .outside⟩

def goto (s : State) (t : Nat) (pc : Pc) : State := { s with threads := s.threads.set t pc }

/-- `while (state_ & n_readers_) gate2_.wait(lk)`, once. -/
def waitReaders (s : State) (t : Nat) : State :=
  if s.state &&& nReaders ≠ 0 then s.goto t .gate2 else s.goto t .writer

/-- `num_readers` takes the place of the readers in `state_`. -/
def setReaders (s : State) (numReaders : UInt32) : State :=
  { s with state := (s.state &&& ~~~nReaders) ||| numReaders }

/-- What a thread does that has got `mut_` in `lock` or `lock_shared`. -/
def enter (s : State) (t : Nat) : Pc → Option State
  | .lock =>
    if s.state &&& writeEntered ≠ 0 then some (s.goto t .gate1)
    else some ({ s with state := s.state ||| writeEntered }.waitReaders t)
  | .lockAgain => some (s.waitReaders t)
  | .lockShared =>
    if s.state &&& writeEntered ≠ 0 ∨ s.state &&& nReaders = nReaders then
      some (s.goto t .gate1Shared)
    else some ((s.setReaders ((s.state &&& nReaders) + 1)).goto t .reader)
  | _ => none

/-- `notify_one`: one thread at the gate, if there is one. -/
def notifyOne (s : State) (gate : Pc → Bool) : Option Nat → Option State
  | none => if s.threads.countP gate = 0 then some s else none
  | some u => do
    let pc ← s.threads[u]?
    if gate pc then some (s.goto u pc.woken) else none

def unlockShared (s : State) (t : Nat) (woken : Option Nat) : Option State :=
  let numReaders := (s.state &&& nReaders) - 1
  let s := (s.setReaders numReaders).goto t .outside
  let silent := if woken = none then some s else none
  if s.state &&& writeEntered ≠ 0 then
    if numReaders = 0 then s.notifyOne Pc.atGate2 woken else silent
  else
    if numReaders = nReaders - 1 then s.notifyOne Pc.atGate1 woken else silent

/-- One step of one thread, and what `try_lock` or `try_lock_shared` returns. -/
def step (a : Action) (s : State) : Option (Option Bool × State) :=
  match a with
  | .call t shared =>
    if s.threads[t]? = some .outside then
      some (none, s.goto t (if shared then .lockShared else .lock))
    else none
  | .enter t => do
    let pc ← s.threads[t]?
    let s ← s.enter t pc
    return (none, s)
  | .tryLock t false owns =>
    if s.threads[t]? = some .outside then
      if owns = true ∧ s.state = 0 then
        some (some true, { s with state := writeEntered }.goto t .writer)
      else some (some false, s)
    else none
  | .tryLock t true owns =>
    if s.threads[t]? = some .outside then
      let numReaders := s.state &&& nReaders
      if owns = true ∧ s.state &&& writeEntered = 0 ∧ numReaders ≠ nReaders then
        some (some true, (s.setReaders (numReaders + 1)).goto t .reader)
      else some (some false, s)
    else none
  | .unlock t =>
    if s.threads[t]? = some .writer then some (none, { s with state := 0 }.goto t .notify) else none
  | .notifyAll t =>
    if s.threads[t]? = some .notify then
      let s := s.goto t .outside
      some (none, { s with threads := s.threads.map fun pc => if pc.atGate1 then pc.woken else pc })
    else none
  | .unlockShared t woken =>
    if s.threads[t]? = some .reader then do
      let s ← s.unlockShared t woken
      return (none, s)
    else none
  | .spurious t => do
    let pc ← s.threads[t]?
    if pc.atGate1 ∨ pc.atGate2 then some (none, s.goto t pc.woken) else none

end State

section Word

variable {x m : UInt32} {w r : Nat}

/-- `state_` says that `w` writers, one at most, have entered and that there are `r` readers. -/
structure Word (x : UInt32) (w r : Nat) : Prop where
  writers : w ≤ 1
  readers : r < 2 ^ 31
  value : x.toNat = 2 ^ 31 * w + r

theorem nReaders_value : nReaders.toNat = 2 ^ 31 - 1 := by decide

theorem Word.nReaders_toNat (h : Word x w r) : (x &&& nReaders).toNat = r := by
  have := h.readers
  rw [UInt32.toNat_and, nReaders_value, Nat.and_two_pow_sub_one_eq_mod, h.value]
  omega

theorem Word.writeEntered_toNat (h : Word x w r) : (x &&& writeEntered).toNat = 2 ^ 31 * w := by
  have hmask : writeEntered.toNat = 2 ^ 31 := by decide
  have hr := h.readers
  have hw := h.writers
  have hdiv : x.toNat / 2 ^ 31 = w := by
    rw [h.value]
    omega
  rw [UInt32.toNat_and, hmask, Nat.and_two_pow, Nat.testBit_eq_decide_div_mod_eq, hdiv]
  obtain rfl | rfl : w = 0 ∨ w = 1 := by omega
  · rfl
  · rfl

theorem Word.entered_iff (h : Word x w r) : x &&& writeEntered ≠ 0 ↔ w = 1 := by
  have hnat := h.writeEntered_toNat
  have hw := h.writers
  rw [ne_eq, ← UInt32.toNat_inj, hnat, UInt32.toNat_zero]
  omega

theorem Word.readers_iff (h : Word x w r) : x &&& nReaders ≠ 0 ↔ r ≠ 0 := by
  rw [ne_eq, ← UInt32.toNat_inj, h.nReaders_toNat, UInt32.toNat_zero]

theorem Word.enter (h : Word x 0 r) : Word (x ||| writeEntered) 1 r := by
  have hmask : writeEntered.toNat = 2 ^ 31 * 1 := by decide
  refine ⟨Nat.le_refl 1, h.readers, ?_⟩
  have hx : x.toNat = r := by
    rw [h.value]
    omega
  rw [UInt32.toNat_or, hx, hmask, Nat.or_comm, ← Nat.two_pow_add_eq_or_of_lt h.readers]

theorem Word.setReaders (h : Word x w r) (hm : m.toNat < 2 ^ 31) :
    Word ((x &&& ~~~nReaders) ||| m) w m.toNat := by
  have hmask : ~~~nReaders = writeEntered := by decide
  refine ⟨h.writers, hm, ?_⟩
  rw [UInt32.toNat_or, hmask, h.writeEntered_toNat, ← Nat.two_pow_add_eq_or_of_lt hm]

theorem Word.entered_zero (h : Word x w r) (hx : x &&& writeEntered = 0) : w = 0 := by
  by_contra hw
  have hle := h.writers
  exact h.entered_iff.mpr (by omega) hx

theorem Word.addReader (h : Word x w r) (hfull : x &&& nReaders ≠ nReaders) :
    Word ((x &&& ~~~nReaders) ||| ((x &&& nReaders) + 1)) w (r + 1) := by
  have hr := h.readers
  rw [ne_eq, ← UInt32.toNat_inj, h.nReaders_toNat, nReaders_value] at hfull
  have hnum : ((x &&& nReaders) + 1).toNat = r + 1 := by
    rw [UInt32.toNat_add, h.nReaders_toNat]
    exact Nat.mod_eq_of_lt (by simp; omega)
  have hset := h.setReaders (m := (x &&& nReaders) + 1) (by omega)
  rwa [hnum] at hset

theorem Word.removeReader (h : Word x w (r + 1)) :
    Word ((x &&& ~~~nReaders) ||| ((x &&& nReaders) - 1)) w r ∧
      ((x &&& nReaders) - 1).toNat = r := by
  have hr := h.readers
  have hnum : ((x &&& nReaders) - 1).toNat = r := by
    rw [UInt32.toNat_sub_of_le]
    · rw [h.nReaders_toNat]
      simp
    · rw [UInt32.le_iff_toNat_le, h.nReaders_toNat]
      simp
  have hset := h.setReaders (m := (x &&& nReaders) - 1) (by omega)
  rw [hnum] at hset
  exact ⟨hset, hnum⟩

end Word

/-- How many threads there are, and how many of them at the points that matter. -/
structure Tally where
  threads : Nat
  gate1 : Nat
  gate2 : Nat
  again : Nat
  writers : Nat
  notifying : Nat
  readers : Nat

namespace Tally

/-- The threads that have set `write_entered_`. -/
def entered (k : Tally) : Nat := k.gate2 + k.again + k.writers

def add (k : Tally) : Pc → Tally
  | .gate1 | .gate1Shared => { k with threads := k.threads + 1, gate1 := k.gate1 + 1 }
  | .gate2 => { k with threads := k.threads + 1, gate2 := k.gate2 + 1 }
  | .lockAgain => { k with threads := k.threads + 1, again := k.again + 1 }
  | .writer => { k with threads := k.threads + 1, writers := k.writers + 1 }
  | .notify => { k with threads := k.threads + 1, notifying := k.notifying + 1 }
  | .reader => { k with threads := k.threads + 1, readers := k.readers + 1 }
  | .outside | .lock | .lockShared => { k with threads := k.threads + 1 }

def of (xs : List Pc) : Tally where
  threads := xs.length
  gate1 := xs.countP Pc.atGate1
  gate2 := xs.countP Pc.atGate2
  again := xs.count .lockAgain
  writers := xs.count .writer
  notifying := xs.count .notify
  readers := xs.count .reader

theorem of_cons (pc : Pc) (xs : List Pc) : of (pc :: xs) = (of xs).add pc := by
  cases pc <;> simp [of, add, Pc.atGate1, Pc.atGate2, List.countP_cons]

theorem of_perm {xs ys : List Pc} (hp : xs.Perm ys) : of xs = of ys := by
  simp only [of, hp.length_eq, hp.countP_eq, hp.count_eq]

theorem readers_le (xs : List Pc) : (of xs).readers ≤ (of xs).threads := List.count_le_length

end Tally

/-- `state_` counts the readers and the writer that has entered; no reader is there beside an owner;
and whoever waits at a gate has someone to notify it: a reader at the second gate, one who has entered
or has still to notify at the first one. That there is no room for one more reader is excluded where
the threads are not that many. -/
structure Balanced (x : UInt32) (k : Tally) : Prop where
  word : Word x k.entered k.readers
  alone : 0 < k.writers → k.readers = 0
  gate2 : 0 < k.gate2 → 0 < k.readers
  gate1 : k.threads < 2 ^ 31 → 0 < k.gate1 → 0 < k.entered + k.notifying

def Inv (s : State) : Prop := Balanced s.state (.of s.threads)

section Moves

variable {s : State} {t u : Nat} {pc pc' : Pc} {x : UInt32}

/-- What a step of one thread has to keep, whatever the counts of the others. -/
theorem Inv.move (h : Inv s) (ht : s.threads[t]? = some pc) (pc' : Pc) (x : UInt32)
    (hkeep : ∀ k : Tally, k.readers ≤ k.threads → Balanced s.state (k.add pc) →
      Balanced x (k.add pc')) : Inv ⟨x, s.threads.set t pc'⟩ := by
  obtain ⟨others, hold, hnew⟩ := perm_set ht
  unfold Inv at h ⊢
  rw [Tally.of_perm hold, Tally.of_cons] at h
  rw [Tally.of_perm (hnew pc'), Tally.of_cons]
  exact hkeep _ (Tally.readers_le others) h

/-- A writer that has entered waits for the readers, or owns the mutex. -/
theorem Inv.waitReaders (h : Inv s) (ht : s.threads[t]? = some .lockAgain) :
    Inv (s.waitReaders t) := by
  unfold State.waitReaders
  split_ifs with hx
  · apply h.move ht .gate2 s.state
    intro k hroom b
    obtain ⟨hword, halone, hgate2, hgate1⟩ := b
    have hr := hword.readers_iff.mp hx
    have he : (k.add .gate2).entered = (k.add .lockAgain).entered := by
      simp only [Tally.entered, Tally.add]
      omega
    exact ⟨he ▸ hword, halone, fun _ => Nat.pos_of_ne_zero hr, he ▸ hgate1⟩
  · apply h.move ht .writer s.state
    intro k hroom b
    obtain ⟨hword, halone, hgate2, hgate1⟩ := b
    have hr : k.readers = 0 := by
      by_contra hr
      exact hx (hword.readers_iff.mpr hr)
    have he : (k.add .writer).entered = (k.add .lockAgain).entered := by
      simp only [Tally.entered, Tally.add]
      omega
    exact ⟨he ▸ hword, fun _ => hr, hgate2, he ▸ hgate1⟩

/-- A writer enters. -/
theorem Inv.enterWriter (h : Inv s) (ht : s.threads[t]? = some pc) (hpc : pc = .lock ∨ pc = .outside)
    (hx : s.state &&& writeEntered = 0) :
    Inv ({ s with state := s.state ||| writeEntered }.waitReaders t) := by
  have hlt : t < s.threads.length := (List.getElem?_eq_some_iff.mp ht).1
  have hagain : Inv ⟨s.state ||| writeEntered, s.threads.set t .lockAgain⟩ := by
    apply h.move ht
    intro k hroom b
    obtain ⟨hword, halone, hgate2, hgate1⟩ := b
    have hnone := hword.entered_zero hx
    have hpc' : k.add pc = k.add .outside := by
      rcases hpc with rfl | rfl <;> rfl
    rw [hpc'] at hword halone hgate2 hnone
    have he : (k.add .lockAgain).entered = 1 := by
      simp only [Tally.entered, Tally.add] at hnone ⊢
      omega
    rw [hnone] at hword
    refine ⟨?_, halone, hgate2, fun _ _ => ?_⟩
    · exact he ▸ hword.enter
    · exact he ▸ Nat.add_pos_left Nat.one_pos _
  have hwait := hagain.waitReaders (t := t) (List.getElem?_set_self hlt)
  have hsame : (⟨s.state ||| writeEntered, s.threads.set t .lockAgain⟩ : State).waitReaders t =
      { s with state := s.state ||| writeEntered }.waitReaders t := by
    unfold State.waitReaders State.goto
    simp only [List.set_set]
  rwa [hsame] at hwait

/-- A reader enters. -/
theorem Inv.enterReader (h : Inv s) (ht : s.threads[t]? = some pc)
    (hpc : pc = .lockShared ∨ pc = .outside) (hx : s.state &&& writeEntered = 0)
    (hfull : s.state &&& nReaders ≠ nReaders) :
    Inv ((s.setReaders ((s.state &&& nReaders) + 1)).goto t .reader) := by
  apply h.move ht .reader
  intro k hroom b
  obtain ⟨hword, halone, hgate2, hgate1⟩ := b
  have hnone := hword.entered_zero hx
  have hone := hword.addReader hfull
  have hpc' : k.add pc = k.add .outside := by
    rcases hpc with rfl | rfl <;> rfl
  rw [hpc'] at hone hnone hgate1
  have hw : k.writers = 0 := by
    simp only [Tally.entered, Tally.add] at hnone
    omega
  refine ⟨hone, fun hpos => ?_, fun _ => Nat.succ_pos _, hgate1⟩
  exact absurd hpos (Nat.not_lt.mpr hw.le)

/-- A thread comes to the lock, or back to it from a gate. -/
theorem Inv.come (h : Inv s) (ht : s.threads[t]? = some pc) (pc' : Pc)
    (hpc : pc = .outside ∧ (pc' = .lock ∨ pc' = .lockShared) ∨
      (pc.atGate1 = true ∨ pc.atGate2 = true) ∧ pc' = pc.woken) : Inv (s.goto t pc') := by
  apply h.move ht pc' s.state
  intro k hroom b
  obtain ⟨hword, halone, hgate2, hgate1⟩ := b
  rcases hpc with ⟨rfl, rfl | rfl⟩ | ⟨hgate, rfl⟩
  · exact ⟨hword, halone, hgate2, hgate1⟩
  · exact ⟨hword, halone, hgate2, hgate1⟩
  · cases pc with
    | gate1 | gate1Shared =>
      exact ⟨hword, halone, hgate2, fun hn hg => hgate1 hn (Nat.lt_succ_of_lt hg)⟩
    | gate2 =>
      have he : (k.add .lockAgain).entered = (k.add .gate2).entered := by
        simp only [Tally.entered, Tally.add]
        omega
      exact ⟨he ▸ hword, halone, fun hg => hgate2 (Nat.lt_succ_of_lt hg), he ▸ hgate1⟩
    | _ => simp [Pc.atGate1, Pc.atGate2] at hgate

/-- A thread that finds a writer, or no room for a reader, waits at the first gate. -/
theorem Inv.waitGate1 (h : Inv s) (ht : s.threads[t]? = some pc) (pc' : Pc)
    (hpc : pc = .lock ∧ pc' = .gate1 ∨ pc = .lockShared ∧ pc' = .gate1Shared)
    (hx : s.state &&& writeEntered ≠ 0 ∨ s.state &&& nReaders = nReaders) : Inv (s.goto t pc') := by
  apply h.move ht pc' s.state
  intro k hroom b
  have hold : k.add pc = k.add .outside := by
    rcases hpc with ⟨rfl, -⟩ | ⟨rfl, -⟩ <;> rfl
  have hnew : k.add pc' = k.add .gate1 := by
    rcases hpc with ⟨-, rfl⟩ | ⟨-, rfl⟩ <;> rfl
  rw [hold] at b
  rw [hnew]
  obtain ⟨hword, halone, hgate2, hgate1⟩ := b
  refine ⟨hword, halone, hgate2, fun hn _ => Nat.add_pos_left ?_ _⟩
  rcases hx with hx | hx
  · have he : (k.add .gate1).entered = 1 := hword.entered_iff.mp hx
    omega
  · have hr := hword.nReaders_toNat
    rw [hx, nReaders_value] at hr
    simp only [Tally.add] at hr hn
    omega

theorem Inv.enter (h : Inv s) (ht : s.threads[t]? = some pc) {s' : State}
    (hs : s.enter t pc = some s') : Inv s' := by
  cases pc with
  | lock =>
    simp only [State.enter] at hs
    split_ifs at hs with hx
    · cases hs
      exact h.waitGate1 ht .gate1 (.inl ⟨rfl, rfl⟩) (.inl hx)
    · cases hs
      exact h.enterWriter ht (.inl rfl) (not_not.mp hx)
  | lockAgain =>
    cases hs
    exact h.waitReaders ht
  | lockShared =>
    simp only [State.enter] at hs
    split_ifs at hs with hx
    · cases hs
      exact h.waitGate1 ht .gate1Shared (.inr ⟨rfl, rfl⟩) hx
    · cases hs
      obtain ⟨hw, hr⟩ := not_or.mp hx
      exact h.enterReader ht (.inl rfl) (not_not.mp hw) hr
  | _ => cases hs

theorem Inv.tryLock (h : Inv s) (ht : s.threads[t]? = some .outside) (hx : s.state = 0) :
    Inv ({ s with state := writeEntered }.goto t .writer) := by
  have hentered := h.enterWriter ht (.inr rfl) (by rw [hx]; rfl)
  have hsame : { s with state := s.state ||| writeEntered }.waitReaders t =
      { s with state := writeEntered }.goto t .writer := by
    have hor : s.state ||| writeEntered = writeEntered := by
      rw [hx]
      decide
    rw [hor]
    exact if_neg (show ¬ (writeEntered &&& nReaders ≠ 0) by decide)
  rwa [hsame] at hentered

theorem Inv.unlock (h : Inv s) (ht : s.threads[t]? = some .writer) :
    Inv ({ s with state := 0 }.goto t .notify) := by
  apply h.move ht .notify 0
  intro k hroom b
  obtain ⟨hword, halone, hgate2, hgate1⟩ := b
  have hr : k.readers = 0 := halone (Nat.succ_pos _)
  have hw := hword.writers
  have he : (k.add .notify).entered = 0 := by
    simp only [Tally.entered, Tally.add] at hw ⊢
    omega
  refine ⟨?_, fun _ => hr, hgate2, fun _ _ => Nat.succ_pos _⟩
  rw [he, show (k.add .notify).readers = 0 from hr]
  exact ⟨Nat.zero_le 1, by decide, rfl⟩

/-- `notify_all` empties the first gate and changes nothing else. -/
theorem of_notified (xs : List Pc) :
    Tally.of (xs.map fun pc => if pc.atGate1 then pc.woken else pc) =
      { Tally.of xs with gate1 := 0 } := by
  have same {p : Pc → Bool} (hp : ∀ pc, p (if pc.atGate1 then pc.woken else pc) = p pc) :
      (xs.map fun pc => if pc.atGate1 then pc.woken else pc).countP p = xs.countP p := by
    rw [List.countP_map]
    exact congrArg (xs.countP ·) (funext hp)
  have hnone : (xs.map fun pc => if pc.atGate1 then pc.woken else pc).countP Pc.atGate1 = 0 := by
    rw [List.countP_map, List.countP_eq_zero]
    intro pc _
    cases pc <;> decide
  unfold Tally.of
  rw [hnone, List.length_map]
  simp only [List.count]
  rw [same, same, same, same, same]
  all_goals intro pc; cases pc <;> rfl

theorem Inv.notifyAll (h : Inv s) (ht : s.threads[t]? = some .notify) :
    Inv { s with
      threads := (s.threads.set t .outside).map fun pc => if pc.atGate1 then pc.woken else pc } := by
  obtain ⟨others, hold, hnew⟩ := perm_set ht
  unfold Inv at h ⊢
  rw [Tally.of_perm hold, Tally.of_cons] at h
  obtain ⟨hword, halone, hgate2, -⟩ := h
  rw [of_notified, Tally.of_perm (hnew .outside), Tally.of_cons]
  exact ⟨hword, halone, hgate2, fun _ hg => absurd hg (Nat.lt_irrefl 0)⟩

/-- `notify_one` at the first gate, or none at all. -/
theorem Inv.notifyOne (h : Inv s) {woken : Option Nat} {s' : State}
    (hs : s.notifyOne Pc.atGate1 woken = some s') : Inv s' := by
  cases woken with
  | none =>
    simp only [State.notifyOne] at hs
    split_ifs at hs
    cases hs
    exact h
  | some u =>
    simp only [State.notifyOne, Option.bind_eq_bind, Option.bind_eq_some_iff] at hs
    obtain ⟨pc, hu, hs⟩ := hs
    split_ifs at hs with hg
    cases hs
    exact h.come hu pc.woken (.inr ⟨.inl hg, rfl⟩)

/-- The last reader leaves and wakes the writer at the second gate, if there is one. -/
theorem notify_writer {woken : Option Nat} {s' : State} (hs : s.notifyOne Pc.atGate2 woken = some s')
    (hword : Word s.state (Tally.of s.threads).entered (Tally.of s.threads).readers)
    (hnone : (Tally.of s.threads).readers = 0)
    (hgate1 : (Tally.of s.threads).threads < 2 ^ 31 → 0 < (Tally.of s.threads).gate1 →
      0 < (Tally.of s.threads).entered + (Tally.of s.threads).notifying) : Inv s' := by
  cases woken with
  | none =>
    simp only [State.notifyOne] at hs
    split_ifs at hs with hg
    cases hs
    exact ⟨hword, fun _ => hnone, fun hpos => absurd hpos (Nat.not_lt.mpr hg.le), hgate1⟩
  | some u =>
    simp only [State.notifyOne, Option.bind_eq_bind, Option.bind_eq_some_iff] at hs
    obtain ⟨pc, hu, hs⟩ := hs
    split_ifs at hs with hg
    cases hs
    obtain rfl : pc = .gate2 := by
      cases pc <;> first | rfl | cases hg
    obtain ⟨others, hold, hnew⟩ := perm_set hu
    rw [Tally.of_perm hold, Tally.of_cons] at hword hnone hgate1
    unfold Inv
    change Balanced s.state (Tally.of (s.threads.set u .lockAgain))
    rw [Tally.of_perm (hnew .lockAgain), Tally.of_cons]
    have hw := hword.writers
    have he : ((Tally.of others).add .lockAgain).entered = ((Tally.of others).add .gate2).entered := by
      simp only [Tally.entered, Tally.add]
      omega
    refine ⟨he ▸ hword, fun _ => hnone, fun hpos => ?_, he ▸ hgate1⟩
    simp only [Tally.entered, Tally.add] at hw hpos
    omega

theorem Inv.unlockShared (h : Inv s) (ht : s.threads[t]? = some .reader) {woken : Option Nat}
    {s' : State} (hs : s.unlockShared t woken = some s') : Inv s' := by
  obtain ⟨others, hold, hnew⟩ := perm_set ht
  have hof : Tally.of (s.threads.set t .outside) = (Tally.of others).add .outside := by
    rw [Tally.of_perm (hnew .outside), Tally.of_cons]
  unfold Inv at h
  rw [Tally.of_perm hold, Tally.of_cons] at h
  obtain ⟨hword, halone, hgate2, hgate1⟩ := h
  obtain ⟨hword', hnum⟩ := hword.removeReader
  let s₁ : State := (s.setReaders ((s.state &&& nReaders) - 1)).goto t .outside
  have hleft (hgate : 0 < (Tally.of others).gate2 → 0 < (Tally.of others).readers) : Inv s₁ := by
    unfold Inv
    change Balanced s₁.state (Tally.of (s.threads.set t .outside))
    rw [hof]
    refine ⟨hword', fun hpos => ?_, hgate, hgate1⟩
    exact absurd (halone hpos) (Nat.succ_ne_zero _)
  have alone (hx : ¬ s₁.state &&& writeEntered ≠ 0) : Inv s₁ := by
    apply hleft
    intro hpos
    have hnone := hword'.entered_zero (not_not.mp hx)
    simp only [Tally.entered, Tally.add] at hnone
    omega
  change (if s₁.state &&& writeEntered ≠ 0 then
      if (s.state &&& nReaders) - 1 = 0 then s₁.notifyOne Pc.atGate2 woken
      else if woken = none then some s₁ else none
    else if (s.state &&& nReaders) - 1 = nReaders - 1 then s₁.notifyOne Pc.atGate1 woken
      else if woken = none then some s₁ else none) = some s' at hs
  split_ifs at hs with hx hlast hwoken hfull hwoken
  · have hzero : (Tally.of others).readers = 0 := by
      rw [← hnum, hlast]
      rfl
    apply notify_writer hs
    · change Word s₁.state (Tally.of (s.threads.set t .outside)).entered
        (Tally.of (s.threads.set t .outside)).readers
      rw [hof]
      exact hword'
    · change (Tally.of (s.threads.set t .outside)).readers = 0
      rw [hof]
      exact hzero
    · change (Tally.of (s.threads.set t .outside)).threads < _ → _
      rw [show s₁.threads = s.threads.set t .outside from rfl, hof]
      exact hgate1
  · rw [← Option.some.inj hs]
    apply hleft
    intro _
    rw [← UInt32.toNat_inj, hnum] at hlast
    exact Nat.pos_of_ne_zero hlast
  · exact (alone hx).notifyOne hs
  · rw [← Option.some.inj hs]
    exact alone hx

theorem Inv.step (h : Inv s) {a : Action} {b : Option Bool} {s' : State}
    (hs : s.step a = some (b, s')) : Inv s' := by
  cases a with
  | call t shared =>
    obtain ⟨ht, he⟩ := Option.ite_none_right_eq_some.mp hs
    cases he
    apply h.come ht
    cases shared
    · exact .inl ⟨rfl, .inl rfl⟩
    · exact .inl ⟨rfl, .inr rfl⟩
  | enter t =>
    simp only [State.step, Option.bind_eq_bind, Option.bind_eq_some_iff] at hs
    obtain ⟨pc, ht, s₁, hs₁, he⟩ := hs
    cases he
    exact h.enter ht hs₁
  | tryLock t shared owns =>
    cases shared with
    | false =>
      obtain ⟨ht, hs⟩ := Option.ite_none_right_eq_some.mp hs
      split_ifs at hs with hx
      · cases hs
        exact h.tryLock ht hx.2
      · cases hs
        exact h
    | true =>
      obtain ⟨ht, hs⟩ := Option.ite_none_right_eq_some.mp hs
      split_ifs at hs with hx
      · cases hs
        exact h.enterReader ht (.inr rfl) hx.2.1 hx.2.2
      · cases hs
        exact h
  | unlock t =>
    obtain ⟨ht, he⟩ := Option.ite_none_right_eq_some.mp hs
    cases he
    exact h.unlock ht
  | notifyAll t =>
    obtain ⟨ht, he⟩ := Option.ite_none_right_eq_some.mp hs
    cases he
    exact h.notifyAll ht
  | unlockShared t woken =>
    obtain ⟨ht, hs⟩ := Option.ite_none_right_eq_some.mp hs
    simp only [Option.bind_eq_bind, Option.bind_eq_some_iff] at hs
    obtain ⟨s₁, hs₁, he⟩ := hs
    cases he
    exact h.unlockShared ht hs₁
  | spurious t =>
    simp only [State.step, Option.bind_eq_bind, Option.bind_eq_some_iff] at hs
    obtain ⟨pc, ht, hs⟩ := hs
    split_ifs at hs with hg
    cases hs
    exact h.come ht pc.woken (.inr ⟨hg, rfl⟩)

theorem inv_initial (n : Nat) : Inv (.initial n) := by
  have hnone : Tally.of (List.replicate n .outside) = ⟨n, 0, 0, 0, 0, 0, 0⟩ := by
    simp [Tally.of, List.countP_replicate, List.count_replicate, Pc.atGate1, Pc.atGate2]
  unfold Inv State.initial
  rw [hnone]
  exact ⟨⟨Nat.zero_le 1, by simp, rfl⟩, by simp, by simp, by simp⟩

end Moves

theorem inv_run (n : Nat) (actions : List Action) (bs : List (Option Bool)) (s : State)
    (hr : run State.step actions (.initial n) = some (bs, s)) : Inv s :=
  run_invariant State.step (fun _ _ => True) Inv (fun _ _ _ _ h _ hs => h.step hs) actions _ s bs
    (inv_initial n) (AllSteps.of_forall (fun _ _ _ => trivial) _) hr

/-- Whatever any number of threads do with the mutex: it has one exclusive owner at most, and while it
has one, it has no shared one; and the bits of `state_` never run into each other: the lower ones are
the number of shared owners, the top one is set exactly while one writer has entered. -/
theorem shared_mutex_exclusive (n : Nat) (actions : List Action) (bs : List (Option Bool)) (s : State)
    (hr : run State.step actions (.initial n) = some (bs, s)) :
    s.threads.count .writer ≤ 1 ∧
    (0 < s.threads.count .writer → s.threads.count .reader = 0) ∧
    (s.state &&& nReaders).toNat = s.threads.count .reader ∧
    (s.state &&& writeEntered ≠ 0 ↔
      s.threads.countP Pc.atGate2 + s.threads.count .lockAgain + s.threads.count .writer = 1) := by
  have h := inv_run n actions bs s hr
  have hw := h.word.writers
  refine ⟨?_, h.alone, h.word.nReaders_toNat, h.word.entered_iff⟩
  change s.threads.countP Pc.atGate2 + s.threads.count .lockAgain + s.threads.count .writer ≤ 1 at hw
  omega

/-- Two readers keep a writer waiting at the second gate; the writer comes in when both have left. -/
theorem shared_mutex_exclusive_three :
    let actions : List Action := [.call 0 true, .call 1 true, .call 2 false, .enter 0, .enter 1,
      .enter 2, .call 3 true, .enter 3, .unlockShared 1 none, .unlockShared 0 (some 2), .enter 2]
    ∃ bs s, run State.step actions (.initial 4) = some (bs, s) ∧
      s.threads = [.outside, .outside, .writer, .gate1Shared] ∧
      s.threads.count .writer ≤ 1 ∧ (0 < s.threads.count .writer → s.threads.count .reader = 0) ∧
      (s.state &&& nReaders).toNat = s.threads.count .reader ∧
      (s.state &&& writeEntered ≠ 0 ↔
        s.threads.countP Pc.atGate2 + s.threads.count .lockAgain + s.threads.count .writer = 1) := by
  intro actions
  have hthreads : (run State.step actions (.initial 4)).map (fun r => r.2.threads) =
      some [.outside, .outside, .writer, .gate1Shared] := by decide +kernel
  obtain ⟨⟨bs, s⟩, hr, hs⟩ := Option.map_eq_some_iff.mp hthreads
  exact ⟨bs, s, hr, hs, shared_mutex_exclusive 4 actions bs s hr⟩

/-- An upper bound for the steps a thread still takes, once no more calls come. -/
def Pc.left : Pc → Nat
  | .outside => 0
  | .reader | .notify => 1
  | .writer | .lockShared => 2
  | .lockAgain | .gate1Shared => 3
  | .gate2 => 4
  | .lock => 5
  | .gate1 => 6

def State.left (s : State) : Nat := (s.threads.map Pc.left).sum

/-- An owner gives the mutex back, a thread has `mut_` in its turn, or others are notified. -/
def Regular : Action → Prop
  | .enter _ | .unlock _ | .notifyAll _ | .unlockShared _ _ => True
  | .call _ _ | .tryLock _ _ _ | .spurious _ => False

section Progress

variable {s : State} {t u : Nat} {pc pc' : Pc} {x : UInt32}

theorem left_goto (ht : s.threads[t]? = some pc) (hlt : pc'.left < pc.left) :
    State.left ⟨x, s.threads.set t pc'⟩ < s.left := by
  have hset := sum_set_add ht pc' Pc.left
  unfold State.left
  dsimp only
  omega

theorem woken_left (pc : Pc) : pc.woken.left ≤ pc.left := by
  cases pc <;> decide

theorem notifyOne_exists (s : State) (gate : Pc → Bool) :
    ∃ woken s', s.notifyOne gate woken = some s' ∧ s'.left ≤ s.left := by
  by_cases hnone : s.threads.countP gate = 0
  · exact ⟨none, s, if_pos hnone, Nat.le_refl _⟩
  · obtain ⟨u, pc, hu, hg⟩ := exists_of_countP_pos (Nat.pos_of_ne_zero hnone)
    refine ⟨some u, s.goto u pc.woken, ?_, ?_⟩
    · simp only [State.notifyOne, hu, Option.bind_eq_bind, Option.bind_some, if_pos hg]
    · have hset := sum_set_add hu pc.woken Pc.left
      have hle := woken_left pc
      unfold State.left State.goto
      dsimp only
      omega

theorem unlockShared_exists (ht : s.threads[t]? = some .reader) :
    ∃ woken s', s.unlockShared t woken = some s' ∧ s'.left < s.left := by
  let s₁ : State := (s.setReaders ((s.state &&& nReaders) - 1)).goto t .outside
  have hlt : s₁.left < s.left := left_goto ht (by decide)
  have change_eq (woken : Option Nat) : s.unlockShared t woken =
      if s₁.state &&& writeEntered ≠ 0 then
        if (s.state &&& nReaders) - 1 = 0 then s₁.notifyOne Pc.atGate2 woken
        else if woken = none then some s₁ else none
      else if (s.state &&& nReaders) - 1 = nReaders - 1 then s₁.notifyOne Pc.atGate1 woken
        else if woken = none then some s₁ else none := rfl
  have notified (gate : Pc → Bool) :
      ∃ woken s', s₁.notifyOne gate woken = some s' ∧ s'.left < s.left := by
    obtain ⟨woken, s', hs', hle⟩ := notifyOne_exists s₁ gate
    exact ⟨woken, s', hs', hle.trans_lt hlt⟩
  simp only [change_eq]
  by_cases hx : s₁.state &&& writeEntered ≠ 0
  · simp only [if_pos hx]
    by_cases hlast : (s.state &&& nReaders) - 1 = 0
    · simp only [if_pos hlast]
      exact notified Pc.atGate2
    · simp only [if_neg hlast]
      exact ⟨none, s₁, if_pos rfl, hlt⟩
  · simp only [if_neg hx]
    by_cases hfull : (s.state &&& nReaders) - 1 = nReaders - 1
    · simp only [if_pos hfull]
      exact notified Pc.atGate1
    · simp only [if_neg hfull]
      exact ⟨none, s₁, if_pos rfl, hlt⟩

theorem left_notified (x : UInt32) (xs : List Pc) :
    State.left ⟨x, xs.map fun pc => if pc.atGate1 then pc.woken else pc⟩ ≤ State.left ⟨x, xs⟩ := by
  unfold State.left
  dsimp only
  rw [List.map_map]
  apply List.sum_le_sum
  intro pc _
  dsimp only [Function.comp]
  split_ifs
  · exact woken_left pc
  · exact Nat.le_refl _

/-- While a thread is in a call or owns the mutex, some step leads on. -/
theorem Inv.progress (h : Inv s) (hn : s.threads.length < 2 ^ 31)
    (hsome : ∃ pc ∈ s.threads, pc ≠ .outside) :
    ∃ a b s', Regular a ∧ s.step a = some (b, s') ∧ s'.left < s.left := by
  have find {p : Pc} (hp : 0 < s.threads.count p) : ∃ t : Nat, s.threads[t]? = some p :=
    List.mem_iff_getElem?.mp (List.count_pos_iff.mp hp)
  by_cases hreader : 0 < s.threads.count .reader
  · obtain ⟨t, ht⟩ := find hreader
    obtain ⟨woken, s', hs', hlt⟩ := unlockShared_exists ht
    exact ⟨.unlockShared t woken, none, s', trivial, by simp [State.step, ht, hs'], hlt⟩
  by_cases hwriter : 0 < s.threads.count .writer
  · obtain ⟨t, ht⟩ := find hwriter
    exact ⟨.unlock t, none, _, trivial, if_pos ht, left_goto ht (by decide)⟩
  by_cases hnotify : 0 < s.threads.count .notify
  · obtain ⟨t, ht⟩ := find hnotify
    refine ⟨.notifyAll t, none, _, trivial, if_pos ht, ?_⟩
    exact (left_notified s.state (s.threads.set t .outside)).trans_lt (left_goto ht (by decide))
  have hnoReaders : s.state &&& nReaders = 0 := by
    by_contra hx
    exact hreader (Nat.pos_of_ne_zero (h.word.readers_iff.mp hx))
  by_cases hagain : 0 < s.threads.count .lockAgain
  · obtain ⟨t, ht⟩ := find hagain
    refine ⟨.enter t, none, s.goto t .writer, trivial, ?_, left_goto ht (by decide)⟩
    simp [State.step, ht, State.enter, State.waitReaders, hnoReaders]
  have hentered : (Tally.of s.threads).entered = 0 := by
    have hgate2 : ¬ 0 < (Tally.of s.threads).gate2 := fun hpos => hreader (h.gate2 hpos)
    change ¬ 0 < (Tally.of s.threads).again at hagain
    change ¬ 0 < (Tally.of s.threads).writers at hwriter
    unfold Tally.entered
    omega
  have hword := h.word
  rw [hentered] at hword
  have hnoWriter : s.state &&& writeEntered = 0 := by
    by_contra hx
    exact absurd (hword.entered_iff.mp hx) (by decide)
  by_cases hlock : 0 < s.threads.count .lock
  · obtain ⟨t, ht⟩ := find hlock
    have hstill : (s.state ||| writeEntered) &&& nReaders = 0 := by
      by_contra hx
      exact hreader (Nat.pos_of_ne_zero (hword.enter.readers_iff.mp hx))
    refine ⟨.enter t, none, { s with state := s.state ||| writeEntered }.goto t .writer, trivial, ?_,
      left_goto ht (by decide)⟩
    simp [State.step, ht, State.enter, State.waitReaders, hnoWriter, hstill]
  by_cases hshared : 0 < s.threads.count .lockShared
  · obtain ⟨t, ht⟩ := find hshared
    have hroom : (0 : UInt32) ≠ nReaders := by decide
    refine ⟨.enter t, none, (s.setReaders ((s.state &&& nReaders) + 1)).goto t .reader, trivial, ?_,
      left_goto ht (by decide)⟩
    simp [State.step, ht, State.enter, hnoWriter, hnoReaders, hroom]
  -- only the first gate is left, and nobody waits there in vain
  obtain ⟨pc, hmem, hpc⟩ := hsome
  have here {p : Pc} (hp : ¬ 0 < s.threads.count p) : pc ≠ p := by
    intro he
    exact hp (List.count_pos_iff.mpr (he ▸ hmem))
  have hgate1 : ¬ 0 < s.threads.countP Pc.atGate1 := by
    intro hpos
    have hone := h.gate1 hn hpos
    rw [hentered] at hone
    exact hnotify (by simpa [Tally.of] using hone)
  have hgate2 : ¬ 0 < s.threads.countP Pc.atGate2 := fun hpos => hreader (h.gate2 hpos)
  cases pc with
  | outside => exact absurd rfl hpc
  | lock => exact absurd rfl (here hlock)
  | gate1 => exact absurd (List.countP_pos_iff.mpr ⟨_, hmem, rfl⟩) hgate1
  | gate2 => exact absurd (List.countP_pos_iff.mpr ⟨_, hmem, rfl⟩) hgate2
  | lockAgain => exact absurd rfl (here hagain)
  | writer => exact absurd rfl (here hwriter)
  | notify => exact absurd rfl (here hnotify)
  | lockShared => exact absurd rfl (here hshared)
  | gate1Shared => exact absurd (List.countP_pos_iff.mpr ⟨_, hmem, rfl⟩) hgate1
  | reader => exact absurd rfl (here hreader)

theorem notifyOne_length {gate : Pc → Bool} {woken : Option Nat} {s' : State}
    (hs : s.notifyOne gate woken = some s') : s'.threads.length = s.threads.length := by
  cases woken with
  | none =>
    obtain ⟨-, he⟩ := Option.ite_none_right_eq_some.mp hs
    cases he
    rfl
  | some u =>
    simp only [State.notifyOne, Option.bind_eq_bind, Option.bind_eq_some_iff] at hs
    obtain ⟨pc, -, hs⟩ := hs
    split_ifs at hs
    cases hs
    exact List.length_set

theorem enter_length {s' : State} (hs : s.enter t pc = some s') :
    s'.threads.length = s.threads.length := by
  have wait_length (s : State) : (s.waitReaders t).threads.length = s.threads.length := by
    unfold State.waitReaders
    split_ifs <;> exact List.length_set
  cases pc with
  | lock =>
    simp only [State.enter] at hs
    split_ifs at hs
    · cases hs
      exact List.length_set
    · cases hs
      exact wait_length _
  | lockAgain =>
    cases hs
    exact wait_length _
  | lockShared =>
    simp only [State.enter] at hs
    split_ifs at hs
    · cases hs
      exact List.length_set
    · cases hs
      exact List.length_set
  | _ => cases hs

/-- No thread is lost. -/
theorem step_length {a : Action} {b : Option Bool} {s' : State} (hs : s.step a = some (b, s')) :
    s'.threads.length = s.threads.length := by
  cases a with
  | call t shared =>
    obtain ⟨-, he⟩ := Option.ite_none_right_eq_some.mp hs
    cases he
    exact List.length_set
  | enter t =>
    simp only [State.step, Option.bind_eq_bind, Option.bind_eq_some_iff] at hs
    obtain ⟨pc, -, s₁, hs₁, he⟩ := hs
    cases he
    exact enter_length hs₁
  | tryLock t shared owns =>
    cases shared with
    | false | true =>
      obtain ⟨-, hs⟩ := Option.ite_none_right_eq_some.mp hs
      split_ifs at hs
      · cases hs
        exact List.length_set
      · cases hs
        rfl
  | unlock t =>
    obtain ⟨-, he⟩ := Option.ite_none_right_eq_some.mp hs
    cases he
    exact List.length_set
  | notifyAll t =>
    obtain ⟨-, he⟩ := Option.ite_none_right_eq_some.mp hs
    cases he
    exact (List.length_map _).trans List.length_set
  | unlockShared t woken =>
    obtain ⟨-, hs⟩ := Option.ite_none_right_eq_some.mp hs
    simp only [Option.bind_eq_bind, Option.bind_eq_some_iff] at hs
    obtain ⟨s₁, hs₁, he⟩ := hs
    cases he
    have hset : (s.threads.set t .outside).length = s.threads.length := List.length_set
    simp only [State.unlockShared] at hs₁
    split_ifs at hs₁
    · exact (notifyOne_length hs₁).trans hset
    · rw [← Option.some.inj hs₁]
      exact hset
    · exact (notifyOne_length hs₁).trans hset
    · rw [← Option.some.inj hs₁]
      exact hset
  | spurious t =>
    simp only [State.step, Option.bind_eq_bind, Option.bind_eq_some_iff] at hs
    obtain ⟨pc, -, hs⟩ := hs
    split_ifs at hs
    cases hs
    exact List.length_set

end Progress

/-- With fewer threads than `state_` can count, none is left waiting: from every state that is reached,
the owners can give the mutex back and every call that is under way can come through, without a new
call and without a wake-up that nobody has asked for, until no thread is at the mutex and `state_` is
0. -/
theorem shared_mutex_live (n : Nat) (hn : n < 2 ^ 31) (actions : List Action)
    (bs : List (Option Bool)) (s : State)
    (hr : run State.step actions (.initial n) = some (bs, s)) :
    ∃ more cs, (∀ a ∈ more, Regular a) ∧ run State.step more s = some (cs, .initial n) := by
  obtain ⟨h, hlen⟩ := run_invariant State.step (fun _ _ => True)
    (fun s => Inv s ∧ s.threads.length = n)
    (fun _ _ _ _ h _ hs => ⟨h.1.step hs, (step_length hs).trans h.2⟩) actions _ s bs
    ⟨inv_initial n, List.length_replicate⟩ (AllSteps.of_forall (fun _ _ _ => trivial) _) hr
  obtain ⟨more, cs, s', hmore, hrun, ⟨h', hlen'⟩, hall⟩ := exists_run State.step Regular
    (fun s => Inv s ∧ s.threads.length = n) (fun s => ∀ pc ∈ s.threads, pc = .outside) State.left
    (fun s h hsome => by
      push Not at hsome
      obtain ⟨a, b, t, ha, hs, hlt⟩ := h.1.progress (h.2.trans_lt hn) hsome
      exact ⟨a, b, t, ha, hs, ⟨h.1.step hs, (step_length hs).trans h.2⟩, hlt⟩)
    s ⟨h, hlen⟩
  refine ⟨more, cs, hmore, ?_⟩
  have hthreads : s'.threads = List.replicate n .outside := List.eq_replicate_iff.mpr ⟨hlen', hall⟩
  have hzero := (inv_initial n).word.value
  have hvalue := h'.word.value
  rw [hthreads] at hvalue
  have hstate : s'.state = 0 := UInt32.toNat_inj.mp (hvalue.trans hzero.symm)
  have he : s' = .initial n := by
    cases s'
    cases hthreads
    cases hstate
    rfl
  rw [hrun, he]

/-- A writer waits for a reader, and another reader for the writer. -/
theorem shared_mutex_live_three :
    let actions : List Action := [.call 0 true, .enter 0, .call 1 false, .enter 1, .call 2 true, .enter 2]
    ∃ bs s, run State.step actions (.initial 3) = some (bs, s) ∧
      s.threads = [.reader, .gate2, .gate1Shared] ∧
      ∃ more cs, (∀ a ∈ more, Regular a) ∧ run State.step more s = some (cs, .initial 3) := by
  intro actions
  have hthreads : (run State.step actions (.initial 3)).map (fun r => r.2.threads) =
      some [.reader, .gate2, .gate1Shared] := by decide +kernel
  obtain ⟨⟨bs, s⟩, hr, hs⟩ := Option.map_eq_some_iff.mp hthreads
  exact ⟨bs, s, hr, hs, shared_mutex_live 3 (by decide) actions bs s hr⟩

end Sysprog.Threads.SharedMutex
