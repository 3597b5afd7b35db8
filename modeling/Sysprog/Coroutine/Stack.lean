import Sysprog.Lib.Memcpy

namespace Sysprog.Coroutine.Stack

/-- How far below the frame of its caller each call of `Restore` places its local, in the order of
the calls. -/
structure Frames where
  amount : ℕ → ℤ
  positive : ∀ depth, 0 < amount depth

/-- All calls alike. -/
def Frames.constant (amount : ℤ) (h : 0 < amount) : Frames := ⟨fun _ => amount, fun _ => h⟩

/-- What a `context` knows of a stack: the range, and a copy of what stood there. -/
structure Context where
  low : ℤ
  hight : ℤ
  stack : Bytes

/-- `Store`, whose local is at `stackEndsHere`. -/
def store (memory : Memory) (stackBottom stackEndsHere : ℤ) : Context :=
  let low := if stackEndsHere > stackBottom then stackBottom else stackEndsHere
  let hight := if stackEndsHere > stackBottom then stackEndsHere else stackBottom
  -- a `uint32_t`
  let sufficientSize := ((hight - low) % 2 ^ 32).toNat
  ⟨low, hight, memory.bytes low sufficientSize⟩

/-- Where `Restore` calls `longjmp`: the address of the local of that call, and the memory. -/
structure Jump where
  restore : ℤ
  memory : Memory

/-- `Restore`, called from a frame at `caller`. A recursive call does not return: it jumps. -/
def restore (frames : Frames) (ctx : Context) (depth : ℕ) (caller : ℤ) (memory : Memory) : Jump :=
  let addr := caller - frames.amount depth
  if addr ≥ ctx.hight then restore frames ctx (depth + 1) addr memory
  else ⟨addr, memory.copy ctx.low ctx.stack⟩
termination_by (caller - ctx.hight).toNat
decreasing_by
  have := frames.positive depth
  omega

/-- The frame of the call that copies is below the range, and keeps what is in it. -/
structure Spares (frames : Frames) (ctx : Context) (caller : ℤ) (memory : Memory) : Prop where
  below : (restore frames ctx 0 caller memory).restore < ctx.low
  kept : (restore frames ctx 0 caller memory).memory (restore frames ctx 0 caller memory).restore =
    memory (restore frames ctx 0 caller memory).restore

theorem store_eq (memory : Memory) {stackBottom suspended : ℤ} (h : suspended ≤ stackBottom) :
    store memory stackBottom suspended =
      ⟨suspended, stackBottom,
        memory.bytes suspended ((stackBottom - suspended) % 2 ^ 32).toNat⟩ := by
  have notAbove : ¬ suspended > stackBottom := Int.not_lt.mpr h
  rw [store, if_neg notAbove, if_neg notAbove]

theorem store_low (memory : Memory) {stackBottom suspended : ℤ} (h : suspended ≤ stackBottom) :
    (store memory stackBottom suspended).low = suspended := by
  rw [store_eq memory h]

theorem restore_again (frames : Frames) (ctx : Context) {depth : ℕ} {caller : ℤ} (memory : Memory)
    (h : ctx.hight ≤ caller - frames.amount depth) :
    restore frames ctx depth caller memory =
      restore frames ctx (depth + 1) (caller - frames.amount depth) memory := by
  rw [restore, if_pos h]

theorem restore_copies (frames : Frames) (ctx : Context) {depth : ℕ} {caller : ℤ} (memory : Memory)
    (h : caller - frames.amount depth < ctx.hight) :
    restore frames ctx depth caller memory =
      ⟨caller - frames.amount depth, memory.copy ctx.low ctx.stack⟩ := by
  rw [restore, if_neg (Int.not_le.mpr h)]

/-- The recursion goes down until it is below `Hight`, and copies there. -/
theorem restore_below (frames : Frames) (ctx : Context) (depth : ℕ) (caller : ℤ)
    (memory : Memory) :
    (restore frames ctx depth caller memory).restore < ctx.hight ∧
      (restore frames ctx depth caller memory).restore < caller ∧
      (restore frames ctx depth caller memory).memory = memory.copy ctx.low ctx.stack := by
  induction depth, caller using restore.induct frames ctx with
  | case1 depth caller addr again ih =>
    have positive := frames.positive depth
    rw [restore_again frames ctx memory again]
    refine ⟨ih.1, ?_, ih.2.2⟩
    apply lt_trans ih.2.1
    omega
  | case2 depth caller addr copies =>
    have positive := frames.positive depth
    rw [restore_copies frames ctx memory (Int.not_le.mp copies)]
    refine ⟨Int.not_le.mp copies, ?_, rfl⟩
    show caller - frames.amount depth < caller
    omega

/-- A frame below the range keeps what is in it. -/
theorem spares_iff_below (frames : Frames) (ctx : Context) (caller : ℤ) (memory : Memory) :
    Spares frames ctx caller memory ↔
      (restore frames ctx 0 caller memory).restore < ctx.low := by
  constructor
  · exact Spares.below
  · intro below
    refine ⟨below, ?_⟩
    rw [(restore_below frames ctx 0 caller memory).2.2]
    exact memory.copy_below ctx.low ctx.stack below

/-- From below the bottom of the stack, the first call of `Restore` copies. -/
theorem restore_first (frames : Frames) (saved current : Memory) {stackBottom suspended caller : ℤ}
    (hs : suspended ≤ stackBottom) (hc : caller < stackBottom) :
    (restore frames (store saved stackBottom suspended) 0 caller current).restore =
      caller - frames.amount 0 := by
  have positive := frames.positive 0
  rw [store_eq saved hs, restore_copies]
  show caller - frames.amount 0 < stackBottom
  omega

/-- `Restore` puts back what `Store` has saved, and changes nothing else. -/
theorem restore_store (frames : Frames) (saved current : Memory) {stackBottom suspended : ℤ}
    (hs : suspended ≤ stackBottom) (size : stackBottom - suspended < 2 ^ 32) (caller a : ℤ) :
    (restore frames (store saved stackBottom suspended) 0 caller current).memory a =
      if suspended ≤ a ∧ a < stackBottom then saved a else current a := by
  have whole : suspended + (((stackBottom - suspended) % 2 ^ 32).toNat : ℤ) = stackBottom := by
    rw [Int.emod_eq_of_lt (by omega) size]
    omega
  rw [(restore_below frames _ 0 caller current).2.2, store_eq saved hs]
  show current.copy suspended (saved.bytes suspended _) a = _
  rw [Memory.copy_bytes, whole]

/-- A frame that is not below the range is overwritten with what has been saved. -/
theorem restore_overwrites (frames : Frames) (saved current : Memory)
    {stackBottom suspended caller : ℤ} (hs : suspended ≤ stackBottom) (hc : caller < stackBottom)
    (size : stackBottom - suspended < 2 ^ 32) (h : suspended ≤ caller - frames.amount 0) :
    (restore frames (store saved stackBottom suspended) 0 caller current).memory
      (caller - frames.amount 0) = saved (caller - frames.amount 0) := by
  have positive := frames.positive 0
  rw [restore_store frames saved current hs size]
  apply if_pos
  omega

/-- Between two routines that were suspended with the local of `Store` `amount` below the frames `a`
and `b`, both ways of switching spare the frame of `Restore` only where it lies deeper than that of
`Store`, and by more than `a` and `b` are apart. -/
theorem spares_both_iff (frames : Frames) (saved saved' current current' : Memory)
    {stackBottom amount a b : ℤ} (positive : 0 < amount) (ha : a < stackBottom)
    (hb : b < stackBottom) :
    Spares frames (store saved stackBottom (b - amount)) a current ∧
      Spares frames (store saved' stackBottom (a - amount)) b current' ↔
    |a - b| < frames.amount 0 - amount := by
  have hsa : a - amount ≤ stackBottom := by omega
  have hsb : b - amount ≤ stackBottom := by omega
  rw [spares_iff_below, spares_iff_below, restore_first frames saved current hsb ha,
    restore_first frames saved' current' hsa hb, store_low saved hsb, store_low saved' hsa, abs_lt]
  constructor
  · rintro ⟨toB, toA⟩
    constructor <;> omega
  · rintro ⟨low, high⟩
    constructor <;> omega

/-- The frame that copies is spared exactly when that of the first call is already below the
range. -/
theorem spares_iff (frames : Frames) (saved current : Memory) {stackBottom suspended caller : ℤ}
    (hs : suspended ≤ stackBottom) (hc : caller < stackBottom) :
    Spares frames (store saved stackBottom suspended) caller current ↔
      caller - frames.amount 0 < suspended := by
  rw [spares_iff_below, restore_first frames saved current hs hc, store_low saved hs]

theorem spares_iff_deep :
    Spares (Frames.constant 16 (by decide)) (store (fun _ => 0) 1000 500) 400 (fun _ => 0) ↔
      (400 : ℤ) - 16 < 500 :=
  spares_iff (Frames.constant 16 (by decide)) _ _ (by decide) (by decide)

/-- A routine that is suspended at 500 is resumed from 900. -/
theorem not_spares :
    ¬ ∀ (frames : Frames) (saved current : Memory) (stackBottom suspended caller : ℤ),
      suspended ≤ stackBottom → caller < stackBottom →
        Spares frames (store saved stackBottom suspended) caller current := by
  intro h
  have spares := h (Frames.constant 16 (by decide)) (fun _ => 0) (fun _ => 0) 1000 500 900
    (by decide) (by decide)
  have below := spares.below
  rw [restore_first _ _ _ (by decide) (by decide), store_low _ (by decide)] at below
  exact absurd below (by decide)

end Sysprog.Coroutine.Stack
