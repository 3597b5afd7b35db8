import Sysprog.Lib.Census
import Sysprog.Lib.Progress

namespace Sysprog.Threads.Futex

/-- Where a thread stands in `thread_f`, and its `i`. -/
inductive Pc where
  /-- `while (!start)`. -/
  | spinning
  /-- The condition of the `for`. -/
  | loop (i : Nat)
  /-- The compare-and-swap of `futex_lock`. -/
  | lock (i : Nat)
  /-- At the entry of `FUTEX_WAIT`. -/
  | wait (i : Nat)
  /-- Asleep in the kernel. -/
  | sleeping (i : Nat)
  /-- `counter + 1`, before and after `counter` is read. -/
  | load (i : Nat)
  | store (i value : Nat)
  /-- The compare-and-swap of `futex_unlock`. -/
  | unlock (i : Nat)
  /-- At the entry of `FUTEX_WAKE`. -/
  | wake (i : Nat)
  | returned
  deriving DecidableEq

inductive Main where
  /-- The thread that is created next. -/
  | creating (i : Nat)
  | starting
  /-- The thread that is joined next. -/
  | joining (i : Nat)
  | printed (counter : Nat)
  deriving DecidableEq

/-- `tid[6]` and the bound of the loop of `thread_f`. As both are `int`, no `i` runs over. -/
structure Sizes where
  threads : Nat
  rounds : Nat
  threads_lt : threads < 2 ^ 31
  rounds_lt : rounds < 2 ^ 31

def sizes : Sizes := ⟨6, 100000, by decide, by decide⟩

structure State where
  futex : Nat
  /-- It only grows, and has no step over the largest `int`. -/
  counter : Nat
  start : Bool
  threads : List Pc
  main : Main
  deriving DecidableEq

def State.initial : State := ⟨0, 0, false, [], .creating 0⟩

inductive Action where
  | main
  /-- Thread `t` goes on, where it does not sleep and does not wake another one. -/
  | go (t : Nat)
  /-- `FUTEX_WAKE` of thread `t` wakes one that sleeps, if there is one. -/
  | wake (t : Nat) (sleeper : Option Nat)
  /-- `FUTEX_WAIT` of thread `t` returns without a `FUTEX_WAKE`. -/
  | interrupt (t : Nat)
  deriving DecidableEq

namespace State

def goto (s : State) (t : Nat) (pc : Pc) : State := { s with threads := s.threads.set t pc }

def stepMain (n : Sizes) (s : State) : Option State :=
  match s.main with
  | .creating i =>
    if i < n.threads then
      some { s with threads := s.threads ++ [.spinning], main := .creating (i + 1) }
    else some { s with main := .starting }
  | .starting => some { s with start := true, main := .joining 0 }
  | .joining i =>
    if i < n.threads then
      if s.threads[i]? = some .returned then some { s with main := .joining (i + 1) } else none
    else some { s with main := .printed s.counter }
  | .printed _ => none

/-- The next step of a thread that stands at `pc`. -/
def stepThread (n : Sizes) (s : State) (t : Nat) : Pc → Option State
  | .spinning => some (s.goto t (if s.start then .loop 0 else .spinning))
  | .loop i => some (s.goto t (if i < n.rounds then .lock i else .returned))
  | .lock i => some (if s.futex = 0 then { s.goto t (.load i) with futex := 1 } else s.goto t (.wait i))
  | .wait i => some (s.goto t (if s.futex = 1 then .sleeping i else .lock i))
  | .load i => some (s.goto t (.store i s.counter))
  | .store i value =>
    if value + 1 < 2 ^ 31 then some { s.goto t (.unlock i) with counter := value + 1 } else none
  | .unlock i => some { s.goto t (.wake i) with futex := if s.futex = 1 then 0 else s.futex }
  | .sleeping _ | .wake _ | .returned => none

def isSleeping : Pc → Bool
  | .sleeping _ => true
  | _ => false

/-- One step of main or of one thread. -/
def step (n : Sizes) : Action → State → Option (Unit × State)
  | .main, s => (s.stepMain n).map fun s => ((), s)
  | .go t, s => do
    let pc ← s.threads[t]?
    let s ← s.stepThread n t pc
    return ((), s)
  | .wake t sleeper, s =>
    match s.threads[t]?, sleeper with
    | some (.wake i), none =>
      if s.threads.countP isSleeping = 0 then some ((), s.goto t (.loop (i + 1))) else none
    | some (.wake i), some u =>
      match s.threads[u]? with
      | some (.sleeping j) => some ((), (s.goto t (.loop (i + 1))).goto u (.lock j))
      | _ => none
    | _, _ => none
  | .interrupt t, s =>
    match s.threads[t]? with
    | some (.sleeping i) => some ((), s.goto t (.lock i))
    | _ => none

end State

namespace Pc

/-- Between `futex_lock` and the compare-and-swap of `futex_unlock`. -/
def holds : Pc → Bool
  | load _ | store _ _ | unlock _ => true
  | _ => false

/-- On the way to the lock or from it, and awake. -/
def active : Pc → Bool
  | lock _ | wait _ | load _ | store _ _ | unlock _ | wake _ => true
  | _ => false

/-- How often the thread has raised `counter`. -/
def raised (rounds : Nat) : Pc → Nat
  | spinning => 0
  | loop i | lock i | wait i | sleeping i | load i | store i _ => i
  | unlock i | wake i => i + 1
  | returned => rounds

/-- `i` is in its range. -/
def InRange (rounds : Nat) : Pc → Prop
  | loop i => i ≤ rounds
  | lock i | wait i | sleeping i | load i | store i _ | unlock i | wake i => i < rounds
  | spinning | returned => True

theorem raised_le {rounds : Nat} {pc : Pc} (h : pc.InRange rounds) : pc.raised rounds ≤ rounds := by
  cases pc with
  | spinning => exact Nat.zero_le _
  | loop => exact h
  | lock | wait | sleeping | load | store => exact Nat.le_of_lt h
  | unlock | wake => exact h
  | returned => exact Nat.le_refl _

theorem active_of_holds {pc : Pc} (h : pc.holds = true) : pc.active = true := by
  cases pc with
  | load | store | unlock => rfl
  | _ => cases h

end Pc

/-- What main knows. -/
def Main.Knows (n : Sizes) (s : State) : Main → Prop
  | creating i => s.threads.length = i ∧ i ≤ n.threads ∧ s.start = false
  | starting => s.threads.length = n.threads ∧ s.start = false
  | joining i => s.threads.length = n.threads ∧ i ≤ n.threads ∧ s.start = true ∧
      ∀ j < i, s.threads[j]? = some .returned
  | printed counter => counter = n.threads * n.rounds

/-- The lock is taken exactly while one thread is between lock and unlock, `counter` is what all
threads have added to it, and while anyone sleeps, someone is awake who will take or free the lock. -/
structure Inv (n : Sizes) (s : State) : Prop where
  futex : s.futex = s.threads.countP Pc.holds
  sole : s.futex ≤ 1
  counter : s.counter = (s.threads.map (Pc.raised n.rounds)).sum
  value : ∀ t i v : Nat, s.threads[t]? = some (.store i v) → v = s.counter
  awake : 0 < s.threads.countP State.isSleeping → 0 < s.threads.countP Pc.active
  range : ∀ (t : Nat) (pc : Pc), s.threads[t]? = some pc → pc.InRange n.rounds
  main : s.main.Knows n s

namespace Inv

variable {n : Sizes} {s : State} {t u i v : Nat} {pc pc' : Pc}

theorem initial (n : Sizes) : Inv n .initial :=
  ⟨rfl, Nat.zero_le _, rfl, by simp [State.initial], by simp [State.initial],
    by simp [State.initial], by simp [State.initial, Main.Knows]⟩

/-- Nobody else is between lock and unlock. -/
theorem only (h : Inv n s) (ht : s.threads[t]? = some pc) (hpc : pc.holds = true)
    (hu : s.threads[u]? = some pc') (hpc' : pc'.holds = true) : u = t := by
  by_contra hne
  have hset := countP_set_add ht .returned Pc.holds
  have hu' : (s.threads.set t .returned)[u]? = some pc' := by rwa [List.getElem?_set_ne (Ne.symm hne)]
  have hpos := countP_pos_of_getElem? hu' hpc'
  have hfutex := h.futex
  have hsole := h.sole
  rw [hpc] at hset
  simp only [Bool.toNat_true] at hset
  change _ = _ + 0 at hset
  omega

/-- A thread that has not returned goes to another point. -/
theorem move (h : Inv n s) (ht : s.threads[t]? = some pc) (hpc : pc ≠ .returned)
    (pc' : Pc) (futex counter : Nat) (hfutex : futex + pc.holds.toNat = s.futex + pc'.holds.toNat)
    (hsole : futex ≤ 1) (hcounter : counter + pc.raised n.rounds = s.counter + pc'.raised n.rounds)
    (hheld : counter = s.counter ∨ pc.holds = true) (hvalue : ∀ i v, pc' = .store i v → v = counter)
    (hawake : 0 < (s.threads.set t pc').countP State.isSleeping →
      0 < (s.threads.set t pc').countP Pc.active)
    (hrange : pc'.InRange n.rounds) :
    Inv n { s.goto t pc' with futex := futex, counter := counter } where
  futex := by
    have hset := countP_set_add ht pc' Pc.holds
    have hcount := h.futex
    dsimp only [State.goto]
    omega
  sole := hsole
  counter := by
    have hset := sum_set_add ht pc' (Pc.raised n.rounds)
    have hsum := h.counter
    dsimp only [State.goto]
    omega
  value := by
    intro u i v hu
    rcases getElem?_set_cases hu with ⟨-, he⟩ | ⟨hne, hu'⟩
    · exact hvalue i v he.symm
    · rcases hheld with hsame | hholds
      · exact (h.value u i v hu').trans hsame.symm
      · exact absurd (h.only ht hholds hu' rfl) hne
  awake := hawake
  range := by
    intro u pc₁ hu
    rcases getElem?_set_cases hu with ⟨-, rfl⟩ | ⟨-, hu⟩
    · exact hrange
    · exact h.range u pc₁ hu
  main := by
    have hmain := h.main
    have hlen : (s.threads.set t pc').length = s.threads.length := List.length_set
    change s.main.Knows n { s.goto t pc' with futex := futex, counter := counter }
    cases hm : s.main with
    | creating i =>
      rw [hm] at hmain
      exact ⟨hlen.trans hmain.1, hmain.2⟩
    | starting =>
      rw [hm] at hmain
      exact ⟨hlen.trans hmain.1, hmain.2⟩
    | joining i =>
      rw [hm] at hmain
      obtain ⟨h1, h2, h3, h4⟩ := hmain
      refine ⟨hlen.trans h1, h2, h3, ?_⟩
      intro j hj
      have hne : t ≠ j := by
        intro he
        subst he
        exact hpc (Option.some.inj (ht.symm.trans (h4 t hj)))
      exact (List.getElem?_set_ne hne).trans (h4 j hj)
    | printed c =>
      rw [hm] at hmain
      exact hmain

/-- A thread outside the lock, where it goes on without it. -/
theorem move_aside (h : Inv n s) (ht : s.threads[t]? = some pc) (hpc : pc ≠ .returned) (pc' : Pc)
    (hholds : pc.holds = false) (hholds' : pc'.holds = false)
    (hraised : pc'.raised n.rounds = pc.raised n.rounds)
    (hawake : 0 < (s.threads.set t pc').countP State.isSleeping →
      0 < (s.threads.set t pc').countP Pc.active)
    (hrange : pc'.InRange n.rounds) : Inv n (s.goto t pc') := by
  apply h.move ht hpc pc' s.futex s.counter
  · rw [hholds, hholds']
  · exact h.sole
  · rw [hraised]
  · exact .inl rfl
  · intro i v he
    rw [he] at hholds'
    cases hholds'
  · exact hawake
  · exact hrange

/-- A step that wakes nobody and puts nobody to sleep. -/
theorem stepThread (h : Inv n s) (ht : s.threads[t]? = some pc) {s' : State}
    (hs : s.stepThread n t pc = some s') : Inv n s' := by
  have hr := h.range t pc ht
  cases pc with
  | spinning =>
    cases hs
    apply h.move_aside ht (by simp) _ rfl
    · split_ifs <;> rfl
    · split_ifs <;> rfl
    · rw [countP_set_eq ht _ State.isSleeping (by split_ifs <;> rfl),
        countP_set_eq ht _ Pc.active (by split_ifs <;> rfl)]
      exact h.awake
    · split_ifs
      · exact Nat.zero_le _
      · trivial
  | loop i =>
    cases hs
    by_cases hi : i < n.rounds
    · rw [if_pos hi]
      exact h.move_aside ht (by simp) (.lock i) rfl rfl rfl (fun _ => countP_set_pos ht rfl) hi
    · rw [if_neg hi]
      have he : n.rounds = i := Nat.le_antisymm (Nat.le_of_not_lt hi) hr
      apply h.move_aside ht (by simp) .returned rfl rfl he _ trivial
      rw [countP_set_eq ht .returned State.isSleeping rfl, countP_set_eq ht .returned Pc.active rfl]
      exact h.awake
  | lock i =>
    cases hs
    by_cases hf : s.futex = 0
    · rw [if_pos hf]
      apply h.move ht (by simp) (.load i) 1 s.counter
      · rw [hf]
        rfl
      · exact Nat.le_refl _
      · rfl
      · exact .inl rfl
      · intro i v he
        cases he
      · exact fun _ => countP_set_pos ht rfl
      · exact hr
    · rw [if_neg hf]
      exact h.move_aside ht (by simp) (.wait i) rfl rfl rfl (fun _ => countP_set_pos ht rfl) hr
  | wait i =>
    cases hs
    by_cases hf : s.futex = 1
    · rw [if_pos hf]
      apply h.move_aside ht (by simp) (.sleeping i) rfl rfl rfl _ hr
      -- whoever has the lock is awake
      intro _
      have hset := countP_set_eq ht (.sleeping i) Pc.holds rfl
      have hpos : 0 < (s.threads.set t (.sleeping i)).countP Pc.holds := by
        rw [hset, ← h.futex, hf]
        exact Nat.one_pos
      exact hpos.trans_le (List.countP_mono_left fun pc _ => Pc.active_of_holds)
    · rw [if_neg hf]
      exact h.move_aside ht (by simp) (.lock i) rfl rfl rfl (fun _ => countP_set_pos ht rfl) hr
  | sleeping i => cases hs
  | load i =>
    cases hs
    apply h.move ht (by simp) (.store i s.counter) s.futex s.counter
    · rfl
    · exact h.sole
    · rfl
    · exact .inl rfl
    · intro j v he
      cases he
      rfl
    · exact fun _ => countP_set_pos ht rfl
    · exact hr
  | store i v =>
    obtain ⟨-, he⟩ := Option.ite_none_right_eq_some.mp hs
    cases he
    have hv := h.value t i v ht
    apply h.move ht (by simp) (.unlock i) s.futex (v + 1)
    · rfl
    · exact h.sole
    · rw [hv]
      simp only [Pc.raised]
      omega
    · exact .inr rfl
    · intro j w he
      cases he
    · exact fun _ => countP_set_pos ht rfl
    · exact hr
  | unlock i =>
    cases hs
    have hfutex : s.futex = 1 := by
      apply Nat.le_antisymm h.sole
      rw [h.futex]
      exact countP_pos_of_getElem? ht rfl
    apply h.move ht (by simp) (.wake i) (if s.futex = 1 then 0 else s.futex) s.counter
    · rw [if_pos hfutex, hfutex]
      rfl
    · rw [if_pos hfutex]
      exact Nat.zero_le _
    · rfl
    · exact .inl rfl
    · intro j w he
      cases he
    · exact fun _ => countP_set_pos ht rfl
    · exact hr
  | wake i => cases hs
  | returned => cases hs

/-- A thread that sleeps is woken, by another one or by the kernel. -/
theorem rouse (h : Inv n s) (ht : s.threads[t]? = some (.sleeping i)) : Inv n (s.goto t (.lock i)) :=
  h.move_aside ht (by simp) (.lock i) rfl rfl rfl (fun _ => countP_set_pos ht rfl)
    (h.range t (.sleeping i) ht)

/-- A thread is through with `futex_unlock`. -/
theorem unlocked (h : Inv n s) (ht : s.threads[t]? = some (.wake i))
    (hawake : 0 < (s.threads.set t (.loop (i + 1))).countP State.isSleeping →
      0 < (s.threads.set t (.loop (i + 1))).countP Pc.active) : Inv n (s.goto t (.loop (i + 1))) :=
  h.move_aside ht (by simp) (.loop (i + 1)) rfl rfl rfl hawake (h.range t (.wake i) ht)

theorem stepMain (h : Inv n s) {s' : State} (hs : s.stepMain n = some s') : Inv n s' := by
  have hmain := h.main
  unfold State.stepMain at hs
  cases hm : s.main with
  | creating i =>
    rw [hm] at hmain hs
    obtain ⟨hlen, hle, hstart⟩ := hmain
    dsimp only at hs
    split_ifs at hs with hi
    · cases hs
      have hlen' : (s.threads ++ [Pc.spinning]).length = i + 1 := by
        rw [List.length_append, hlen]
        rfl
      refine ⟨?_, h.sole, ?_, ?_, ?_, ?_, hlen', hi, hstart⟩
      · exact h.futex.trans (countP_push s.threads .spinning Pc.holds).symm
      · dsimp only
        rw [List.map_append, List.sum_append]
        exact h.counter
      · intro t j v ht
        exact h.value t j v (getElem?_push_ne ht (by simp))
      · rw [countP_push, countP_push]
        exact h.awake
      · intro t pc ht
        by_cases hpc : pc = .spinning
        · rw [hpc]
          trivial
        · exact h.range t pc (getElem?_push_ne ht hpc)
    · cases hs
      exact ⟨h.futex, h.sole, h.counter, h.value, h.awake, h.range,
        hlen.trans (Nat.le_antisymm hle (Nat.le_of_not_lt hi)), hstart⟩
  | starting =>
    rw [hm] at hmain hs
    cases hs
    exact ⟨h.futex, h.sole, h.counter, h.value, h.awake, h.range, hmain.1, Nat.zero_le _, rfl,
      by simp⟩
  | joining i =>
    rw [hm] at hmain hs
    obtain ⟨hlen, hle, hstart, hjoined⟩ := hmain
    dsimp only at hs
    split_ifs at hs with hi hret
    · cases hs
      refine ⟨h.futex, h.sole, h.counter, h.value, h.awake, h.range, hlen, hi, hstart, ?_⟩
      intro j hj
      rcases Nat.lt_succ_iff_lt_or_eq.mp hj with hj | rfl
      · exact hjoined j hj
      · exact hret
    · cases hs
      refine ⟨h.futex, h.sole, h.counter, h.value, h.awake, h.range, ?_⟩
      have hi' : i = n.threads := Nat.le_antisymm hle (Nat.le_of_not_lt hi)
      have hall : s.threads.map (Pc.raised n.rounds) = List.replicate n.threads n.rounds := by
        rw [List.eq_replicate_iff, List.length_map]
        refine ⟨hlen, ?_⟩
        intro k hk
        obtain ⟨pc, hpc, rfl⟩ := List.mem_map.mp hk
        obtain ⟨j, hj⟩ := List.mem_iff_getElem?.mp hpc
        have hlt := (List.getElem?_eq_some_iff.mp hj).1
        have hpc' := hjoined j (by omega)
        rw [hj] at hpc'
        rw [Option.some.inj hpc']
        rfl
      change s.counter = _
      rw [h.counter, hall, List.sum_replicate, smul_eq_mul]
  | printed c =>
    rw [hm] at hs
    cases hs

theorem step (h : Inv n s) {a : Action} {b : Unit} {s' : State} (hs : s.step n a = some (b, s')) :
    Inv n s' := by
  cases a with
  | main =>
    obtain ⟨s₁, hs₁, he⟩ := Option.map_eq_some_iff.mp hs
    cases he
    exact h.stepMain hs₁
  | go t =>
    simp only [State.step, Option.bind_eq_bind, Option.bind_eq_some_iff] at hs
    obtain ⟨pc, ht, s₁, hs₁, he⟩ := hs
    cases he
    exact h.stepThread ht hs₁
  | wake t sleeper =>
    cases ht : s.threads[t]? with
    | none => simp [State.step, ht] at hs
    | some pc =>
      cases pc with
      | wake i =>
        cases sleeper with
        | none =>
          simp only [State.step, ht] at hs
          split_ifs at hs with hnone
          cases hs
          apply h.unlocked ht
          rw [countP_set_eq ht (.loop (i + 1)) State.isSleeping rfl, hnone]
          exact fun hlt => absurd hlt (Nat.lt_irrefl 0)
        | some u =>
          simp only [State.step, ht] at hs
          cases hu : s.threads[u]? with
          | none => simp [hu] at hs
          | some pc' =>
            cases pc' with
            | sleeping j =>
              simp only [hu] at hs
              cases hs
              have hne : u ≠ t := by
                intro he
                rw [he, ht] at hu
                cases hu
              have ht' : (s.threads.set u (.lock j))[t]? = some (.wake i) := by
                rwa [List.getElem?_set_ne hne]
              have hu' : ((s.threads.set u (.lock j)).set t (.loop (i + 1)))[u]? = some (.lock j) := by
                rw [List.getElem?_set_ne hne.symm]
                exact List.getElem?_set_self (List.getElem?_eq_some_iff.mp hu).1
              have hcomm : (s.goto t (.loop (i + 1))).goto u (.lock j) =
                  (s.goto u (.lock j)).goto t (.loop (i + 1)) := by
                unfold State.goto
                rw [List.set_comm _ _ hne.symm]
              rw [hcomm]
              exact (h.rouse hu).unlocked ht' fun _ => countP_pos_of_getElem? hu' rfl
            | _ => simp [hu] at hs
      | _ => simp [State.step, ht] at hs
  | interrupt t =>
    cases ht : s.threads[t]? with
    | none => simp [State.step, ht] at hs
    | some pc =>
      cases pc with
      | sleeping i =>
        simp only [State.step, ht] at hs
        cases hs
        exact h.rouse ht
      | _ => simp [State.step, ht] at hs

end Inv

/-- An upper bound for the steps a thread still takes, waking others included. -/
def Pc.left (rounds : Nat) : Pc → Nat
  | spinning => 10 * rounds + 2
  | loop i => 10 * (rounds - i) + 1
  | wait i | sleeping i => 10 * (rounds - i)
  | lock i => 10 * (rounds - i) - 1
  | load i => 10 * (rounds - i) - 2
  | store i _ => 10 * (rounds - i) - 3
  | unlock i => 10 * (rounds - i) - 4
  | wake i => 10 * (rounds - i) - 5
  | returned => 0

def Main.left (n : Sizes) : Main → Nat
  | creating i => (n.threads - i) * (10 * n.rounds + 3) + n.threads + 3
  | starting => n.threads + 2
  | joining i => n.threads - i + 1
  | printed _ => 0

def State.left (n : Sizes) (s : State) : Nat :=
  (s.threads.map (Pc.left n.rounds)).sum + s.main.left n

/-- A step without luck: main or a thread goes on, and nobody is interrupted. -/
def Regular : Action → Prop
  | .interrupt _ => False
  | _ => True

/-- Where a thread has no step, or one that may be in vain. -/
def Idle (s : State) : Pc → Prop
  | .sleeping _ | .returned => True
  | .lock _ | .wait _ => s.futex = 1
  | .spinning => s.start = false
  | .loop _ | .load _ | .store _ _ | .unlock _ | .wake _ => False

namespace Inv

variable {n : Sizes} {s : State} {t u i v : Nat} {pc pc' : Pc}

/-- What is left after a step of one thread. -/
theorem left_goto (ht : s.threads[t]? = some pc) (hlt : pc'.left n.rounds < pc.left n.rounds)
    {s' : State} (hs : s'.threads = s.threads.set t pc') (hm : s'.main = s.main) :
    s'.left n < s.left n := by
  have hset := sum_set_add ht pc' (Pc.left n.rounds)
  unfold State.left
  rw [hs, hm]
  omega

/-- There is room in `counter` for what a thread is about to add. -/
theorem counter_lt (h : Inv n s) (hlen : s.threads.length ≤ n.threads)
    (ht : s.threads[t]? = some (.store i v)) : s.counter < n.threads * n.rounds := by
  have hset := sum_set_add ht (.unlock i) (Pc.raised n.rounds)
  have hcounter := h.counter
  have hle : ((s.threads.set t (.unlock i)).map (Pc.raised n.rounds)).sum ≤
      n.threads * n.rounds := by
    refine (List.sum_le_card_nsmul _ n.rounds ?_).trans ?_
    · intro k hk
      obtain ⟨pc, hpc, rfl⟩ := List.mem_map.mp hk
      obtain ⟨u, hu⟩ := List.mem_iff_getElem?.mp hpc
      apply Pc.raised_le
      rcases getElem?_set_cases hu with ⟨-, rfl⟩ | ⟨-, hu⟩
      · exact h.range t (.store i v) ht
      · exact h.range u pc hu
    · rw [List.length_map, List.length_set, smul_eq_mul]
      exact Nat.mul_le_mul_right _ hlen
  simp only [Pc.raised] at hset
  omega

theorem go_left (ht : s.threads[t]? = some pc) (pc' : Pc) {s' : State} (hs : s.stepThread n t pc = some s')
    (hlt : pc'.left n.rounds < pc.left n.rounds) (hs' : s'.threads = s.threads.set t pc')
    (hm : s'.main = s.main) :
    ∃ a b s', Regular a ∧ s.step n a = some (b, s') ∧ s'.left n < s.left n := by
  refine ⟨.go t, (), s', trivial, ?_, left_goto ht hlt hs' hm⟩
  simp only [State.step, ht, Option.bind_eq_bind, Option.bind_some, hs]
  rfl

theorem advance (h : Inv n s) (hsmall : n.threads * n.rounds < 2 ^ 31)
    (hlen : s.threads.length ≤ n.threads) (ht : s.threads[t]? = some pc) (hpc : ¬ Idle s pc) :
    ∃ a b s', Regular a ∧ s.step n a = some (b, s') ∧ s'.left n < s.left n := by
  have hr := h.range t pc ht
  have hsole := h.sole
  cases pc with
  | spinning =>
    have hstart : s.start = true := by simpa [Idle] using hpc
    apply go_left ht (.loop 0) rfl
    · simp [Pc.left]
    · rw [if_pos hstart]
      rfl
    · rfl
  | loop i =>
    by_cases hi : i < n.rounds
    · apply go_left ht (.lock i) rfl
      · simp only [Pc.left]
        omega
      · rw [if_pos hi]
        rfl
      · rfl
    · apply go_left ht .returned rfl
      · simp only [Pc.left]
        omega
      · rw [if_neg hi]
        rfl
      · rfl
  | lock i =>
    have hf : s.futex = 0 := by
      simp only [Idle] at hpc
      omega
    apply go_left ht (.load i) rfl
    · simp only [Pc.left, Pc.InRange] at hr ⊢
      omega
    · rw [if_pos hf]
      rfl
    · rw [if_pos hf]
      rfl
  | wait i =>
    have hf : ¬ s.futex = 1 := hpc
    apply go_left ht (.lock i) rfl
    · simp only [Pc.left, Pc.InRange] at hr ⊢
      omega
    · rw [if_neg hf]
      rfl
    · rfl
  | sleeping i => exact absurd trivial hpc
  | load i =>
    apply go_left ht (.store i s.counter) rfl
    · simp only [Pc.left, Pc.InRange] at hr ⊢
      omega
    · rfl
    · rfl
  | store i v =>
    have hv := h.value t i v ht
    have hroom := h.counter_lt hlen ht
    apply go_left ht (.unlock i) (if_pos (by omega))
    · simp only [Pc.left, Pc.InRange] at hr ⊢
      omega
    · rfl
    · rfl
  | unlock i =>
    apply go_left ht (.wake i) rfl
    · simp only [Pc.left, Pc.InRange] at hr ⊢
      omega
    · rfl
    · rfl
  | wake i =>
    have hdown : (Pc.loop (i + 1)).left n.rounds < (Pc.wake i).left n.rounds := by
      simp only [Pc.left, Pc.InRange] at hr ⊢
      omega
    by_cases hnone : s.threads.countP State.isSleeping = 0
    · refine ⟨.wake t none, (), s.goto t (.loop (i + 1)), trivial, ?_, left_goto ht hdown rfl rfl⟩
      simp only [State.step, ht, if_pos hnone]
    · obtain ⟨pc', hmem, hsleeps⟩ := List.countP_pos_iff.mp (Nat.pos_of_ne_zero hnone)
      obtain ⟨u, hu⟩ := List.mem_iff_getElem?.mp hmem
      cases pc' with
      | sleeping j =>
        refine ⟨.wake t (some u), (), (s.goto t (.loop (i + 1))).goto u (.lock j), trivial, ?_, ?_⟩
        · simp only [State.step, ht, hu]
        · have hne : u ≠ t := by
            intro he
            rw [he, ht] at hu
            cases hu
          have hu' : (s.threads.set t (.loop (i + 1)))[u]? = some (.sleeping j) := by
            rwa [List.getElem?_set_ne hne.symm]
          have hj := h.range u (.sleeping j) hu
          have hwoken : (Pc.lock j).left n.rounds < (Pc.sleeping j).left n.rounds := by
            simp only [Pc.left, Pc.InRange] at hj ⊢
            omega
          have h1 : (s.goto t (.loop (i + 1))).left n < s.left n := left_goto ht hdown rfl rfl
          have h2 : ((s.goto t (.loop (i + 1))).goto u (.lock j)).left n <
              (s.goto t (.loop (i + 1))).left n := left_goto hu' hwoken rfl rfl
          exact h2.trans h1
      | _ => cases hsleeps
  | returned => exact absurd trivial hpc

/-- Where nothing goes on, everyone has returned. -/
theorem all_returned (h : Inv n s) (hstart : s.start = true)
    (hidle : ∀ (t : Nat) (pc : Pc), s.threads[t]? = some pc → Idle s pc) (ht : s.threads[t]? = some pc) :
    pc = .returned := by
  have hnone {p : Pc → Bool} (hp : ∀ pc, Idle s pc → p pc = false) : s.threads.countP p = 0 := by
    rw [List.countP_eq_zero]
    intro pc hmem
    obtain ⟨u, hu⟩ := List.mem_iff_getElem?.mp hmem
    simp [hp pc (hidle u pc hu)]
  have hfutex : s.futex = 0 := by
    rw [h.futex]
    apply hnone
    intro pc hpc
    cases pc with
    | load | store | unlock => exact absurd hpc id
    | _ => rfl
  have hactive : s.threads.countP Pc.active = 0 := by
    apply hnone
    intro pc hpc
    cases pc with
    | lock | wait =>
      have hone : s.futex = 1 := hpc
      rw [hfutex] at hone
      cases hone
    | load | store | unlock | wake => exact absurd hpc id
    | spinning | loop | sleeping | returned => rfl
  have hpc := hidle t pc ht
  cases pc with
  | returned => rfl
  | sleeping i =>
    have hpos := h.awake (countP_pos_of_getElem? ht rfl)
    rw [hactive] at hpos
    exact absurd hpos (Nat.lt_irrefl 0)
  | lock | wait =>
    have hone : s.futex = 1 := hpc
    rw [hfutex] at hone
    cases hone
  | spinning =>
    have hno : s.start = false := hpc
    rw [hstart] at hno
    cases hno
  | loop | load | store | unlock | wake => exact absurd hpc id

/-- As long as main has not printed, some step leads on. -/
theorem progress (h : Inv n s) (hsmall : n.threads * n.rounds < 2 ^ 31) (hm : ∀ c, s.main ≠ .printed c) :
    ∃ a b s', Regular a ∧ s.step n a = some (b, s') ∧ s'.left n < s.left n := by
  have hmain := h.main
  have main_left (s' : State) (hs : s.stepMain n = some s') (hlt : s'.left n < s.left n) :
      ∃ a b s', Regular a ∧ s.step n a = some (b, s') ∧ s'.left n < s.left n :=
    ⟨.main, (), s', trivial, by simp only [State.step, hs]; rfl, hlt⟩
  cases hs : s.main with
  | creating i =>
    rw [hs] at hmain
    obtain ⟨hlen, hle, -⟩ := hmain
    by_cases hi : i < n.threads
    · apply main_left { s with threads := s.threads ++ [.spinning], main := .creating (i + 1) }
      · simp [State.stepMain, hs, hi]
      · have hleft : n.threads - i = n.threads - (i + 1) + 1 := by omega
        simp only [State.left, hs, Main.left, List.map_append, List.sum_append, hleft, Nat.succ_mul]
        simp [Pc.left]
        omega
    · apply main_left { s with main := .starting }
      · simp [State.stepMain, hs, hi]
      · simp only [State.left, hs, Main.left]
        omega
  | starting =>
    apply main_left { s with start := true, main := .joining 0 }
    · simp [State.stepMain, hs]
    · simp only [State.left, hs, Main.left]
      omega
  | joining i =>
    rw [hs] at hmain
    obtain ⟨hlen, hle, hstart, -⟩ := hmain
    by_cases hi : i < n.threads
    · by_cases hidle : ∀ (t : Nat) (pc : Pc), s.threads[t]? = some pc → Idle s pc
      · have hi' := List.getElem?_eq_getElem (show i < s.threads.length by omega)
        have hret := h.all_returned hstart hidle hi'
        apply main_left { s with main := .joining (i + 1) }
        · rw [hret] at hi'
          simp [State.stepMain, hs, hi, hi']
        · simp only [State.left, hs, Main.left]
          omega
      · push Not at hidle
        obtain ⟨t, pc, ht, hpc⟩ := hidle
        exact h.advance hsmall (Nat.le_of_eq hlen) ht hpc
    · apply main_left { s with main := .printed s.counter }
      · simp [State.stepMain, hs, hi]
      · simp only [State.left, hs, Main.left]
        omega
  | printed c => exact absurd hs (hm c)

end Inv

/-- However the threads are scheduled and whatever wakes them: never are two of them between
`futex_lock` and `futex_unlock`, what main prints is the number of all rounds, and as no `FUTEX_WAKE`
is lost, the program can always go on to print it without an interrupted `FUTEX_WAIT`, where the
number fits into an `int`. -/
theorem futex_counts (n : Sizes) (hsmall : n.threads * n.rounds < 2 ^ 31) (actions : List Action)
    (bs : List Unit) (s : State) (hr : run (State.step n) actions .initial = some (bs, s)) :
    s.threads.countP Pc.holds ≤ 1 ∧ (∀ c, s.main = .printed c → c = n.threads * n.rounds) ∧
    ∃ more cs s', (∀ a ∈ more, Regular a) ∧ run (State.step n) more s = some (cs, s') ∧
      s'.main = .printed (n.threads * n.rounds) := by
  have h := run_invariant (State.step n) (fun _ _ => True) (Inv n)
    (fun a s b s' h _ hs => h.step hs) actions _ s bs (Inv.initial n)
    (AllSteps.of_forall (fun _ _ _ => trivial) _) hr
  have printed {s : State} {c : Nat} (h : Inv n s) (hm : s.main = .printed c) :
      c = n.threads * n.rounds := by
    have hmain := h.main
    rw [hm] at hmain
    exact hmain
  refine ⟨h.futex ▸ h.sole, fun c hc => printed h hc, ?_⟩
  obtain ⟨more, cs, s', hmore, hrun, h', c, hc⟩ := exists_run (State.step n) Regular (Inv n)
    (fun s => ∃ c, s.main = .printed c) (State.left n)
    (fun s h hm => by
      push Not at hm
      obtain ⟨a, b, t, ha, hs, hlt⟩ := h.progress hsmall hm
      exact ⟨a, b, t, ha, hs, h.step hs, hlt⟩)
    s h
  exact ⟨more, cs, s', hmore, hrun, printed h' hc ▸ hc⟩

def twoThreads : Sizes := ⟨2, 1, by decide, by decide⟩

/-- Two threads of which the second one has gone to sleep. -/
theorem futex_counts_two :
    let actions : List Action := [.main, .main, .main, .main, .go 0, .go 1, .go 0, .go 1, .go 0, .go 1,
      .go 1]
    ∃ bs s, run (State.step twoThreads) actions .initial = some (bs, s) ∧
      s.threads = [.load 0, .sleeping 0] ∧ s.threads.countP Pc.holds ≤ 1 ∧
      (∀ c, s.main = .printed c → c = 2 * 1) ∧
      ∃ more cs s', (∀ a ∈ more, Regular a) ∧ run (State.step twoThreads) more s = some (cs, s') ∧
        s'.main = .printed (2 * 1) := by
  intro actions
  exact ⟨_, _, rfl, rfl, futex_counts twoThreads (by decide) actions _ _ rfl⟩

end Sysprog.Threads.Futex
