import Mathlib.Data.Nat.Bitwise
import Sysprog.Lib.Run

namespace Sysprog.FlatCombiner

/-- The lock bit of `_lock`. -/
def lckBitMask : UInt64 := (1 : UInt64) <<< 63

/-- The bits of `_lock` that count the generations. -/
def genValMask : UInt64 := ~~~lckBitMask

/-- Where a thread stands: the next access to `_lock`, with what it has read from it so far. -/
inductive Pc where
  /-- Not in `apply_slot`. -/
  | outside
  | load
  | loadAgain (unlockedState : UInt64)
  | exchange (unlockedState lockedState : UInt64)
  /-- The exchange of `try_lock` has been made. -/
  | reload
  /-- `combining(gen)` and `_combine`. -/
  | combine (gen : UInt64)
  | unlockLoad
  | unlockLoadAgain (newGenUnlockedState : UInt64)
  | unlockExchange (newGenUnlockedState expected : UInt64)
  /-- At the condition of the `while` of `apply_slot`. -/
  | waiting
  deriving DecidableEq

structure Thread where
  pc : Pc
  /-- History: an exchange of `try_lock` has been made, and no `unlock` since. -/
  took : Bool
  deriving DecidableEq

/-- What a step makes known of a call. -/
inductive Event where
  | silent
  /-- `try_lock` returns `gen`; `took` is whether its exchange was made. -/
  | tryLock (gen : UInt64) (took : Bool)
  /-- `unlock` returns; `_lock` before its exchange and behind it. -/
  | unlock (before after : UInt64)
  deriving DecidableEq

structure State (ι : Type) where
  lock : UInt64
  threads : ι → Thread

namespace State

variable {ι : Type} [DecidableEq ι]

/-- Nobody has called `apply_slot` yet. -/
def initial (lock : UInt64) : State ι := ⟨lock, fun _ => ⟨.outside, false⟩⟩

def setThread (s : State ι) (i : ι) (t : Thread) : State ι :=
  { s with threads := Function.update s.threads i t }

def goto (s : State ι) (i : ι) (pc : Pc) : State ι := s.setThread i { s.threads i with pc }

/-- The next access of thread `i` to `_lock`. `needs` is what `need_to_process` holds, where the
thread looks at it. -/
def next (i : ι) (needs : Bool) (s : State ι) : Event × State ι :=
  match (s.threads i).pc with
  | .outside => (.silent, s.goto i .load)
  | .load => (.silent, s.goto i (.loadAgain (s.lock &&& genValMask)))
  | .loadAgain unlockedState => (.silent, s.goto i (.exchange unlockedState (s.lock ||| lckBitMask)))
  | .exchange unlockedState lockedState =>
    if s.lock = unlockedState then
      (.silent, { s with lock := lockedState }.setThread i ⟨.reload, true⟩)
    else (.tryLock 0 false, s.goto i .waiting)
  | .reload =>
    let gen := s.lock &&& genValMask
    (.tryLock gen true, s.goto i (if gen > 0 then .combine gen else .waiting))
  | .combine _ => (.silent, s.goto i .unlockLoad)
  | .unlockLoad => (.silent, s.goto i (.unlockLoadAgain ((s.lock &&& genValMask) + 1)))
  | .unlockLoadAgain new => (.silent, s.goto i (.unlockExchange new s.lock))
  | .unlockExchange new expected =>
    let lock := if s.lock = expected then new else s.lock
    (.unlock s.lock lock, { s with lock }.setThread i ⟨.outside, false⟩)
  | .waiting => (.silent, s.goto i (if needs then .load else .outside))

def step (m : ι × Bool) (s : State ι) : Option (Event × State ι) := some (s.next m.1 m.2)

/-- At most one thread is between a successful exchange of `try_lock` and its `unlock`. -/
def Exclusive (s : State ι) : Prop :=
  ∀ i j, (s.threads i).took = true → (s.threads j).took = true → i = j

/-- A step keeps the protocol of the lock. -/
structure Meets (m : ι × Bool) (s : State ι) : Prop where
  exclusive : (s.next m.1 m.2).2.Exclusive
  /-- Only a thread that has taken the lock gets a generation, and it goes on to combine. -/
  returns : ∀ gen took, (s.next m.1 m.2).1 = .tryLock gen took →
    (gen ≠ 0 ↔ took = true) ∧ (took = true → ((s.next m.1 m.2).2.threads m.1).pc = .combine gen)
  /-- The lock bit goes, and the generation grows by one as long as it can. -/
  unlocks : ∀ before after, (s.next m.1 m.2).1 = .unlock before after →
    before &&& genValMask < genValMask →
      after &&& lckBitMask = 0 ∧ after = (before &&& genValMask) + 1

/-- The exchange of `try_lock` is not made on the generation 0. -/
def TakesLater (m : ι × Bool) (s : State ι) : Prop :=
  ∀ lockedState, (s.threads m.1).pc = .exchange 0 lockedState → s.lock ≠ 0

end State

/-- The generation. -/
def gen (w : UInt64) : Nat := w.toNat % 2 ^ 63

theorem toNat_genVal (w : UInt64) : (w &&& genValMask).toNat = gen w := by
  have mask : genValMask.toNat = 2 ^ 63 - 1 := by decide
  rw [UInt64.toNat_and, mask, Nat.and_two_pow_sub_one_eq_mod]
  rfl

theorem gen_lt (w : UInt64) : gen w < 2 ^ 63 := Nat.mod_lt _ (by decide)

theorem gen_of_lt {w : UInt64} (h : w.toNat < 2 ^ 63) : gen w = w.toNat := Nat.mod_eq_of_lt h

theorem gen_of_ge {w : UInt64} (h : 2 ^ 63 ≤ w.toNat) : gen w + 2 ^ 63 = w.toNat := by
  have := w.toNat_lt
  unfold gen
  omega

theorem toNat_or_lck {w : UInt64} (h : w.toNat < 2 ^ 63) :
    (w ||| lckBitMask).toNat = w.toNat + 2 ^ 63 := by
  have mask : lckBitMask.toNat = 2 ^ 63 * 1 := by decide
  rw [UInt64.toNat_or, mask, Nat.or_comm, ← Nat.two_pow_add_eq_or_of_lt h]
  omega

theorem or_lck_of_ge {w : UInt64} (h : 2 ^ 63 ≤ w.toNat) : (w ||| lckBitMask).toNat = w.toNat := by
  have mask : lckBitMask.toNat = 2 ^ 63 := by decide
  have split : 2 ^ 63 * 1 ||| gen w = w.toNat := by
    rw [← Nat.two_pow_add_eq_or_of_lt (gen_lt w), ← gen_of_ge h]
    omega
  rw [UInt64.toNat_or, mask, ← split, Nat.mul_one, Nat.or_right_comm, Nat.or_self]

theorem toNat_succ_genVal (w : UInt64) : ((w &&& genValMask) + 1).toNat = gen w + 1 := by
  have := gen_lt w
  rw [UInt64.toNat_add, toNat_genVal]
  exact Nat.mod_eq_of_lt (by simp; omega)

theorem unlocked_iff {w : UInt64} : w &&& lckBitMask = 0 ↔ w.toNat < 2 ^ 63 := by
  have mask : lckBitMask.toNat = 2 ^ 63 := by decide
  have bit : w.toNat.testBit 63 = decide (2 ^ 63 ≤ w.toNat) := by
    have := w.toNat_lt
    rw [Nat.testBit_eq_decide_div_mod_eq, decide_eq_decide]
    omega
  rw [← UInt64.toNat_inj, UInt64.toNat_and, mask, Nat.and_two_pow, bit]
  by_cases h : 2 ^ 63 ≤ w.toNat <;> simp

namespace Pc

/-- Between a successful exchange and the end of `unlock`. -/
def Inside : Pc → Prop
  | reload | combine _ | unlockLoad | unlockLoadAgain _ | unlockExchange _ _ => True
  | _ => False

/-- What a thread has read from `_lock` is right: it has not changed since where the thread is
inside, and has no lock bit elsewhere. -/
def Expects (lock : UInt64) : Pc → Prop
  | loadAgain unlockedState | exchange unlockedState _ => unlockedState.toNat < 2 ^ 63
  | unlockLoadAgain new => new.toNat = gen lock + 1
  | unlockExchange new expected => new.toNat = gen lock + 1 ∧ expected = lock
  | _ => True

/-- What was read from `_lock` is not ahead of it, and still good if the generation is the same. -/
def Behind (lock : UInt64) : Pc → Prop
  | loadAgain unlockedState => unlockedState.toNat ≤ gen lock
  | exchange unlockedState lockedState => unlockedState.toNat ≤ gen lock ∧
    (unlockedState.toNat = gen lock → lockedState.toNat = gen lock + 2 ^ 63)
  | _ => True

theorem Expects.of_outside {lock : UInt64} {pc : Pc} (h : pc.Expects lock) (out : ¬ pc.Inside)
    (lock' : UInt64) : pc.Expects lock' := by
  cases pc with
  | loadAgain _ => exact h
  | exchange _ _ => exact h
  | unlockLoadAgain _ => exact absurd trivial out
  | unlockExchange _ _ => exact absurd trivial out
  | _ => trivial

theorem Behind.of_gen {lock lock' : UInt64} {pc : Pc} (h : pc.Behind lock)
    (eq : gen lock' = gen lock) : pc.Behind lock' := by
  cases pc with
  | loadAgain _ => simpa only [Behind, eq] using h
  | exchange _ _ => simpa only [Behind, eq] using h
  | _ => trivial

theorem Behind.of_lt {lock lock' : UInt64} {pc : Pc} (h : pc.Behind lock)
    (lt : gen lock < gen lock') : pc.Behind lock' := by
  cases pc with
  | loadAgain _ => exact Nat.le_of_lt (Nat.lt_of_le_of_lt h lt)
  | exchange _ _ =>
    have before := Nat.lt_of_le_of_lt h.1 lt
    exact ⟨Nat.le_of_lt before, fun same => absurd same (Nat.ne_of_lt before)⟩
  | _ => trivial

end Pc

namespace State

variable {ι : Type} {s : State ι} {i : ι}

/-- The generations are used up: the lock bit is set, and nobody has taken the lock. -/
def Over (s : State ι) : Prop := s.lock.toNat = 2 ^ 63 ∧ ∀ i, (s.threads i).took = false

/-- What holds after every run. -/
structure Inv (s : State ι) : Prop where
  exclusive : s.Exclusive
  locked : ∀ i, (s.threads i).took = true → 2 ^ 63 ≤ s.lock.toNat
  inside : ∀ i, (s.threads i).pc.Inside → (s.threads i).took = true
  expects : ∀ i, (s.threads i).pc.Expects s.lock
  behind : s.Over ∨ ∀ i, (s.threads i).pc.Behind s.lock

theorem inv_initial (lock : UInt64) : (initial lock : State ι).Inv where
  exclusive := by
    intro i j hi
    cases hi
  locked := by
    intro i hi
    cases hi
  inside := by
    intro i hi
    cases hi
  expects := fun _ => trivial
  behind := .inr fun _ => trivial

/-- Where no lock bit is set, nobody has taken the lock. -/
theorem Inv.nobody (h : s.Inv) (free : s.lock.toNat < 2 ^ 63) (j : ι) :
    (s.threads j).took = false := by
  by_contra hj
  have := h.locked j (by simpa using hj)
  omega

/-- Only the thread that has taken the lock is inside. -/
theorem Inv.outside (h : s.Inv) (took : (s.threads i).took = true) {j : ι} (ne : j ≠ i) :
    (s.threads j).took = false ∧ ¬ (s.threads j).pc.Inside := by
  have not : (s.threads j).took ≠ true := fun hj => ne (h.exclusive j i hj took)
  exact ⟨by simpa using not, fun hj => not (h.inside j hj)⟩

variable [DecidableEq ι]

@[simp] theorem setThread_lock (s : State ι) (i : ι) (t : Thread) : (s.setThread i t).lock = s.lock :=
  rfl

@[simp] theorem setThread_self (s : State ι) (i : ι) (t : Thread) :
    (s.setThread i t).threads i = t := by
  simp [setThread]

@[simp] theorem setThread_of_ne (s : State ι) {i j : ι} (t : Thread) (h : j ≠ i) :
    (s.setThread i t).threads j = s.threads j := by
  simp [setThread, h]

/-- What holds of all threads after one of them has changed. -/
theorem forall_setThread {P : Thread → Prop} {t : Thread} (new : P t)
    (old : ∀ j, j ≠ i → P (s.threads j)) (j : ι) : P ((s.setThread i t).threads j) := by
  by_cases eq : j = i
  · subst eq
    rw [setThread_self]
    exact new
  · rw [setThread_of_ne s t eq]
    exact old j eq

@[simp] theorem goto_lock (s : State ι) (i : ι) (pc : Pc) : (s.goto i pc).lock = s.lock := rfl

theorem goto_took (s : State ι) (i : ι) (pc : Pc) (j : ι) :
    ((s.goto i pc).threads j).took = (s.threads j).took := by
  by_cases eq : j = i
  · subst eq
    simp [goto]
  · simp [goto, eq]

/-- A step of a thread that leaves `_lock` alone. -/
theorem Inv.goto (h : s.Inv) {pc : Pc} (inside : pc.Inside → (s.threads i).took = true)
    (expects : pc.Expects s.lock) (behind : ¬ s.Over → pc.Behind s.lock) : (s.goto i pc).Inv where
  exclusive := by
    intro j k hj hk
    rw [goto_took] at hj hk
    exact h.exclusive j k hj hk
  locked := by
    intro j hj
    rw [goto_took] at hj
    exact h.locked j hj
  inside := forall_setThread (P := fun t => t.pc.Inside → t.took = true) inside
    fun j _ => h.inside j
  expects := forall_setThread (P := fun t => t.pc.Expects s.lock) expects fun j _ => h.expects j
  behind := by
    by_cases ended : s.Over
    · refine .inl ⟨ended.1, ?_⟩
      intro j
      rw [goto_took]
      exact ended.2 j
    · have old := h.behind.resolve_left ended
      exact .inr (forall_setThread (P := fun t => t.pc.Behind s.lock) (behind ended)
        fun j _ => old j)

/-- A thread whose exchange finds the lock free takes it, and keeps the generation. -/
theorem Inv.take (h : s.Inv) {lockedState : UInt64}
    (pc : (s.threads i).pc = .exchange s.lock lockedState) :
    ({ s with lock := lockedState }.setThread i ⟨.reload, true⟩ : State ι).Inv ∧
      gen lockedState = s.lock.toNat ∧ 2 ^ 63 ≤ lockedState.toNat := by
  have free : s.lock.toNat < 2 ^ 63 := by
    have := h.expects i
    rw [pc] at this
    exact this
  have old : ∀ j, (s.threads j).pc.Behind s.lock := by
    apply h.behind.resolve_left
    intro ended
    have := ended.1
    omega
  have value : lockedState.toNat = s.lock.toNat + 2 ^ 63 := by
    have := old i
    rw [pc, Pc.Behind, gen_of_lt free] at this
    exact this.2 rfl
  have same : gen lockedState = gen s.lock := by
    rw [gen_of_lt free]
    unfold gen
    omega
  have out : ∀ j, ¬ (s.threads j).pc.Inside := by
    intro j hj
    have := h.inside j hj
    simp [h.nobody free j] at this
  have only : ∀ j, (({ s with lock := lockedState }.setThread i ⟨.reload, true⟩ :
      State ι).threads j).took = true → j = i := by
    intro j hj
    by_contra ne
    simp [ne, h.nobody free j] at hj
  refine ⟨?_, same.trans (gen_of_lt free), by omega⟩
  exact
    { exclusive := by
        intro j k hj hk
        rw [only j hj, only k hk]
      locked := by
        intro j _
        show 2 ^ 63 ≤ lockedState.toNat
        omega
      inside := forall_setThread (P := fun t => t.pc.Inside → t.took = true) (fun _ => rfl)
        fun j _ => h.inside j
      expects := forall_setThread (P := fun t => t.pc.Expects lockedState) trivial
        fun j _ => (h.expects j).of_outside (out j) _
      behind := .inr (forall_setThread (P := fun t => t.pc.Behind lockedState) trivial
        fun j _ => (old j).of_gen same) }

/-- The thread that has taken the lock opens it for the next generation, if there is one. -/
theorem Inv.release (h : s.Inv) {new expected : UInt64}
    (pc : (s.threads i).pc = .unlockExchange new expected) :
    ({ s with lock := new }.setThread i ⟨.outside, false⟩ : State ι).Inv ∧ expected = s.lock ∧
      new.toNat = gen s.lock + 1 := by
  have took : (s.threads i).took = true := by
    apply h.inside i
    rw [pc]
    trivial
  have expects := h.expects i
  rw [pc] at expects
  obtain ⟨value, eq⟩ := expects
  have locked := h.locked i took
  have old : ∀ j, (s.threads j).pc.Behind s.lock := by
    apply h.behind.resolve_left
    intro ended
    rw [ended.2 i] at took
    cases took
  have nobody : ∀ j, (({ s with lock := new }.setThread i ⟨.outside, false⟩ :
      State ι).threads j).took = false :=
    forall_setThread (P := fun t => t.took = false) rfl fun j ne => (h.outside took ne).1
  refine ⟨?_, eq, value⟩
  exact
    { exclusive := by
        intro j k hj
        rw [nobody j] at hj
        cases hj
      locked := by
        intro j hj
        rw [nobody j] at hj
        cases hj
      inside := forall_setThread (P := fun t => t.pc.Inside → t.took = true) False.elim
        fun j _ => h.inside j
      expects := forall_setThread (P := fun t => t.pc.Expects new) trivial
        fun j ne => (h.expects j).of_outside (h.outside took ne).2 _
      behind := by
        by_cases room : new.toNat < 2 ^ 63
        · have more : gen s.lock < gen new := by
            rw [gen_of_lt room]
            omega
          exact .inr (forall_setThread (P := fun t => t.pc.Behind new) trivial
            fun j _ => (old j).of_lt more)
        · refine .inl ⟨?_, nobody⟩
          have := gen_lt s.lock
          show new.toNat = 2 ^ 63
          omega }

theorem next_inv (h : s.Inv) (i : ι) (needs : Bool) : (s.next i needs).2.Inv := by
  have inside := h.inside i
  have expects := h.expects i
  have behind : ¬ s.Over → (s.threads i).pc.Behind s.lock := fun go => h.behind.resolve_left go i
  cases pc : (s.threads i).pc with
  | outside =>
    simp only [next, pc]
    exact h.goto False.elim trivial fun _ => trivial
  | load =>
    simp only [next, pc]
    apply h.goto False.elim
    · show (s.lock &&& genValMask).toNat < 2 ^ 63
      rw [toNat_genVal]
      exact gen_lt _
    · intro _
      exact Nat.le_of_eq (toNat_genVal _)
  | loadAgain unlockedState =>
    rw [pc] at expects behind
    have clear : (Pc.exchange unlockedState (s.lock ||| lckBitMask)).Expects s.lock := expects
    simp only [next, pc]
    apply h.goto False.elim clear
    intro go
    refine ⟨behind go, ?_⟩
    intro same
    by_cases free : s.lock.toNat < 2 ^ 63
    · rw [toNat_or_lck free, gen_of_lt free]
    · rw [or_lck_of_ge (Nat.le_of_not_lt free), ← gen_of_ge (Nat.le_of_not_lt free)]
  | exchange unlockedState lockedState =>
    by_cases free : s.lock = unlockedState
    · simp only [next, pc, if_pos free]
      rw [← free] at pc
      exact (h.take pc).1
    · simp only [next, pc, if_neg free]
      exact h.goto False.elim trivial fun _ => trivial
  | reload =>
    rw [pc] at inside
    simp only [next, pc]
    split_ifs
    · exact h.goto inside trivial fun _ => trivial
    · exact h.goto False.elim trivial fun _ => trivial
  | combine _ =>
    rw [pc] at inside
    simp only [next, pc]
    exact h.goto inside trivial fun _ => trivial
  | unlockLoad =>
    rw [pc] at inside
    simp only [next, pc]
    exact h.goto inside (toNat_succ_genVal s.lock) fun _ => trivial
  | unlockLoadAgain new =>
    rw [pc] at inside expects
    simp only [next, pc]
    exact h.goto inside ⟨expects, rfl⟩ fun _ => trivial
  | unlockExchange new expected =>
    obtain ⟨inv, eq, -⟩ := h.release pc
    simp only [next, pc, eq, if_true]
    exact inv
  | waiting =>
    simp only [next, pc]
    cases needs with
    | true => exact h.goto False.elim trivial fun _ => trivial
    | false => exact h.goto False.elim trivial fun _ => trivial

theorem next_of_ne (s : State ι) {i j : ι} (needs : Bool) (ne : j ≠ i) :
    (s.next i needs).2.threads j = s.threads j := by
  cases pc : (s.threads i).pc with
  | exchange unlockedState lockedState =>
    simp only [next, pc]
    split_ifs <;> simp [goto, ne]
  | _ => simp [next, pc, goto, ne]

/-- While a thread holds the lock, no other one changes `_lock`. -/
theorem Inv.next_lock (h : s.Inv) (took : (s.threads i).took = true) {j : ι} (ne : j ≠ i)
    (needs : Bool) : (s.next j needs).2.lock = s.lock := by
  have locked := h.locked i took
  have expects := h.expects j
  have out := (h.outside took ne).2
  cases pc : (s.threads j).pc with
  | exchange unlockedState lockedState =>
    rw [pc] at expects
    have held : s.lock ≠ unlockedState := by
      rintro rfl
      exact absurd locked (Nat.not_le.mpr expects)
    simp [next, pc, held]
  | unlockExchange new expected =>
    rw [pc] at out
    exact absurd trivial out
  | _ => simp [next, pc]

/-- How a thread comes to stand behind its exchange. -/
theorem next_reload {needs : Bool} (h : ((s.next i needs).2.threads i).pc = .reload) :
    ∃ lockedState, (s.threads i).pc = .exchange s.lock lockedState ∧
      (s.next i needs).2.lock = lockedState := by
  cases pc : (s.threads i).pc with
  | exchange unlockedState lockedState =>
    by_cases free : s.lock = unlockedState
    · exact ⟨lockedState, by rw [free], by simp [next, pc, free]⟩
    · simp [next, pc, free, goto] at h
  | reload =>
    simp only [next, pc] at h
    split_ifs at h <;> simp [goto] at h
  | waiting => cases needs <;> simp [next, pc, goto] at h
  | _ => simp [next, pc, goto] at h

/-- Which steps return from `try_lock`. -/
theorem next_tryLock {needs took : Bool} {w : UInt64} (h : (s.next i needs).1 = .tryLock w took) :
    w = 0 ∧ took = false ∨
      (s.threads i).pc = .reload ∧ w = s.lock &&& genValMask ∧ took = true := by
  cases pc : (s.threads i).pc with
  | exchange unlockedState lockedState =>
    by_cases free : s.lock = unlockedState
    · simp [next, pc, free] at h
    · obtain ⟨rfl, rfl⟩ : 0 = w ∧ false = took := by simpa [next, pc, free] using h
      exact .inl ⟨rfl, rfl⟩
  | reload =>
    obtain ⟨rfl, rfl⟩ : s.lock &&& genValMask = w ∧ true = took := by simpa [next, pc] using h
    exact .inr ⟨rfl, rfl, rfl⟩
  | _ => simp [next, pc] at h

/-- Which steps return from `unlock`. -/
theorem next_unlock {needs : Bool} {before after : UInt64}
    (h : (s.next i needs).1 = .unlock before after) :
    ∃ new expected, (s.threads i).pc = .unlockExchange new expected ∧ before = s.lock ∧
      after = if s.lock = expected then new else s.lock := by
  cases pc : (s.threads i).pc with
  | unlockExchange new expected =>
    obtain ⟨rfl, rfl⟩ : s.lock = before ∧ (if s.lock = expected then new else s.lock) = after := by
      simpa [next, pc] using h
    exact ⟨new, expected, rfl, rfl, rfl⟩
  | exchange unlockedState lockedState =>
    by_cases free : s.lock = unlockedState <;> simp [next, pc, free] at h
  | _ => simp [next, pc] at h

/-- No thread that has just taken the lock finds the generation 0. -/
def Nonzero (s : State ι) : Prop := ∀ i, (s.threads i).pc = .reload → gen s.lock ≠ 0

theorem genVal_eq_zero {w : UInt64} : w &&& genValMask = 0 ↔ gen w = 0 := by
  rw [← UInt64.toNat_inj, toNat_genVal]
  rfl

theorem next_nonzero (h : s.Inv) (nonzero : s.Nonzero) {needs : Bool}
    (later : TakesLater (i, needs) s) : (s.next i needs).2.Nonzero := by
  intro j hj
  by_cases eq : j = i
  · subst eq
    obtain ⟨lockedState, pc, lock⟩ := next_reload hj
    rw [lock, (h.take pc).2.1]
    intro zero
    have word : s.lock = 0 := UInt64.toNat_inj.mp zero
    rw [word] at pc
    exact later lockedState pc word
  · rw [next_of_ne s needs eq] at hj
    have took : (s.threads j).took = true := by
      apply h.inside j
      rw [hj]
      trivial
    rw [h.next_lock took (Ne.symm eq)]
    exact nonzero j hj

/-- Where no thread has taken the lock on the generation 0, a step keeps the protocol. -/
theorem next_meets (h : s.Inv) (nonzero : s.Nonzero) (m : ι × Bool) : Meets m s where
  exclusive := (next_inv h m.1 m.2).exclusive
  returns := by
    intro w took event
    rcases next_tryLock event with ⟨rfl, rfl⟩ | ⟨pc, rfl, rfl⟩
    · simp
    · have some : s.lock &&& genValMask ≠ 0 := fun zero => nonzero m.1 pc (genVal_eq_zero.mp zero)
      have pos : s.lock &&& genValMask > 0 := UInt64.pos_iff_ne_zero.mpr some
      refine ⟨iff_of_true some rfl, fun _ => ?_⟩
      simp [next, pc, pos, goto]
  unlocks := by
    intro before after event room
    obtain ⟨new, expected, pc, rfl, rfl⟩ := next_unlock event
    obtain ⟨-, rfl, value⟩ := h.release pc
    have mask : genValMask.toNat = 2 ^ 63 - 1 := by decide
    rw [UInt64.lt_iff_toNat_lt, toNat_genVal, mask] at room
    rw [if_pos rfl, unlocked_iff, ← UInt64.toNat_inj, toNat_succ_genVal]
    exact ⟨by omega, value⟩

/-- The lock has been taken on the generation 0. -/
def Lost (i : ι) (s : State ι) : Prop := (s.threads i).pc = .reload ∧ gen s.lock = 0

/-- The thread that has lost the lock is about to return 0. -/
theorem Lost.not_meets (h : s.Lost i) (needs : Bool) : ¬ Meets (i, needs) s := by
  intro meets
  have zero := genVal_eq_zero.mpr h.2
  have event : (s.next i needs).1 = .tryLock 0 true := by simp [next, h.1, zero]
  exact absurd ((meets.returns 0 true event).1.mpr rfl) (by simp)

/-- The steps of the others do not help. -/
theorem Lost.next (h : s.Lost i) (inv : s.Inv) {j : ι} (ne : j ≠ i) (needs : Bool) :
    (s.next j needs).2.Lost i := by
  have took : (s.threads i).took = true := by
    apply inv.inside i
    rw [h.1]
    trivial
  rw [Lost, next_of_ne s needs (Ne.symm ne), inv.next_lock took ne]
  exact h

theorem Lost.run (h : s.Lost i) (inv : s.Inv) (moves : List (ι × Bool)) :
    ∃ more, ¬ AllSteps step Meets (moves ++ more) s := by
  induction moves generalizing s with
  | nil => exact ⟨[(i, false)], fun all => h.not_meets false all.1⟩
  | cons m moves ih =>
    by_cases eq : m.1 = i
    · subst eq
      exact ⟨[], fun all => h.not_meets m.2 all.1⟩
    · obtain ⟨more, fails⟩ := ih (h.next inv eq m.2) (next_inv inv m.1 m.2)
      exact ⟨more, fun all => fails (all.tail rfl)⟩

/-- A thread that takes the lock on the generation 0 loses it. -/
theorem next_lost (h : s.Inv) {m : ι × Bool} (now : ¬ TakesLater m s) :
    (s.next m.1 m.2).2.Lost m.1 := by
  simp only [TakesLater, not_forall, not_not] at now
  obtain ⟨lockedState, pc, word⟩ := now
  rw [← word] at pc
  have taken := (h.take pc).2.1
  simp [Lost, next, pc, taken, word]

theorem breaks (h : s.Inv) (moves : List (ι × Bool)) (once : ¬ AllSteps step TakesLater moves s) :
    ∃ more, ¬ AllSteps step Meets (moves ++ more) s := by
  induction moves generalizing s with
  | nil => exact absurd trivial once
  | cons m moves ih =>
    by_cases later : TakesLater m s
    · have rest : ¬ AllSteps step TakesLater moves (s.next m.1 m.2).2 := fun all => once ⟨later, all⟩
      obtain ⟨more, fails⟩ := ih (next_inv h m.1 m.2) rest
      exact ⟨more, fun all => fails (all.tail rfl)⟩
    · obtain ⟨more, fails⟩ := (next_lost h later).run (next_inv h m.1 m.2) moves
      exact ⟨more, fun all => fails (all.tail rfl)⟩

/-- A run keeps the protocol of the lock where no exchange of `try_lock` is made on the generation
0; a run in which one is made can only go on to break it. -/
theorem lock_protocol (lock : UInt64) (moves : List (ι × Bool)) :
    (AllSteps step TakesLater moves (initial lock) → AllSteps step Meets moves (initial lock)) ∧
      (¬ AllSteps step TakesLater moves (initial lock) →
        ∃ more, ¬ AllSteps step Meets (moves ++ more) (initial lock)) := by
  constructor
  · intro all
    have start : (initial lock : State ι).Inv ∧ (initial lock : State ι).Nonzero := by
      refine ⟨inv_initial lock, ?_⟩
      intro i hi
      cases hi
    apply all.of_invariant (fun s => s.Inv ∧ s.Nonzero) ?_ start
    rintro m s ⟨inv, nonzero⟩ later
    refine ⟨next_meets inv nonzero m, ?_⟩
    intro event s' stepped
    obtain ⟨-, rfl⟩ : (s.next m.1 m.2).1 = event ∧ (s.next m.1 m.2).2 = s' := by
      simpa [step, Prod.ext_iff] using stepped
    exact ⟨next_inv inv m.1 m.2, next_nonzero inv nonzero later⟩
  · exact breaks (inv_initial lock) moves

/-- The first thread to call `apply_slot` takes the lock, and is told that it has not. -/
theorem not_lock_protocol :
    ¬ AllSteps step Meets (List.replicate 5 ((), false)) (initial 0 : State Unit) := by
  intro all
  have last := ((((all.tail rfl).tail rfl).tail rfl).tail rfl).1
  refine Lost.not_meets ?_ false last
  exact ⟨rfl, by decide⟩

end State

end Sysprog.FlatCombiner
