import Sysprog.Lib.Machine

namespace Sysprog.Coroutine

/-- A call that the body of a routine makes. Routines are named in the order of their
registration; `sched none` is `sched(nullptr)`. -/
inductive Action where
  | run (func : List Action)
  | yield
  | sched (routine : Option Nat)

/-- What a `context *` points at. -/
inductive Context where
  | idle
  | routine (id : Nat)
  deriving DecidableEq

/-- A `Store` into, or a `Restore` of, a context that is null or has been deleted. -/
inductive Fault where
  | store (ctx : Option Context)
  | restore (ctx : Option Context)
  deriving DecidableEq

/-- Whose code is being executed. -/
inductive Control where
  /-- `start` itself. -/
  | start
  | routine (id : Nat)
  /-- The caller of `start`. -/
  | caller
  | fault (fault : Fault)
  deriving DecidableEq

structure Engine where
  /-- `StackBottom` is not 0. -/
  stackBottom : Bool
  curRoutine : Option Context
  alive : List Nat
  idleCtx : Option Context
  /-- What each routine registered so far has still to execute: the suspension that its context
  holds. -/
  scripts : List (List Action)
  /-- The routines whose contexts are deleted. -/
  deleted : List Nat
  control : Control

namespace Engine

def new : Engine where
  stackBottom := false
  curRoutine := none
  alive := []
  idleCtx := none
  scripts := []
  deleted := []
  control := .start

/-- The context is allocated. -/
def Live (e : Engine) : Context → Prop
  | .idle => e.idleCtx = some .idle
  | .routine id => id < e.scripts.length ∧ id ∉ e.deleted

instance (e : Engine) : DecidablePred e.Live
  | .idle => inferInstanceAs (Decidable (_ = _))
  | .routine _ => inferInstanceAs (Decidable (_ ∧ _))

def store (e : Engine) : Option Context → Except Fault Unit
  | none => .error (.store none)
  | some ctx => if e.Live ctx then .ok () else .error (.store (some ctx))

/-- Passes control to what the context has suspended. -/
def restore (e : Engine) : Option Context → Except Fault Engine
  | none => .error (.restore none)
  | some ctx =>
    if e.Live ctx then
      .ok { e with
        curRoutine := if some ctx = e.idleCtx then none else some ctx
        control := match ctx with
          | .idle => .start
          | .routine id => .routine id }
    else .error (.restore (some ctx))

/-- The head of `alive`, or the one after it when the head is the current routine. -/
def nextRoutine (e : Engine) : Option Nat :=
  match e.alive with
  | [] => none
  | head :: rest => if some (.routine head) = e.curRoutine then rest.head? else some head

def yield (e : Engine) : Except Fault Engine :=
  match e.nextRoutine with
  | none => .ok e
  | some next => do
    if e.curRoutine ≠ e.idleCtx then
      e.store e.curRoutine
    e.restore (some (.routine next))

def sched (e : Engine) : Option Nat → Except Fault Engine
  | none => e.yield
  | some routine =>
    if some (.routine routine) ≠ e.curRoutine then do
      if e.curRoutine.isSome then
        e.store e.curRoutine
      e.restore (some (.routine routine))
    else .ok e

/-- Registers a routine and returns its context. -/
def run (e : Engine) (func : List Action) : Option Nat × Engine :=
  if e.stackBottom then
    (some e.scripts.length,
      { e with scripts := e.scripts ++ [func], alive := e.scripts.length :: e.alive })
  else (none, e)

/-- The end of `run`'s second return: the body is done, its context leaves the list and is
deleted. -/
def finish (e : Engine) (id : Nat) : Except Fault Engine :=
  let e := { e with alive := e.alive.erase id, curRoutine := none, deleted := id :: e.deleted }
  e.restore e.idleCtx

/-- The end of `start`. -/
def shutdown (e : Engine) : Engine :=
  { e with idleCtx := none, stackBottom := false, control := .caller }

/-- A fault ends the program. -/
def orFault (e : Engine) : Except Fault Engine → Engine
  | .ok f => f
  | .error f => { e with control := .fault f }

/-- `start` up to the first switch. -/
def start (main : List Action) : Engine :=
  let (pc, e) := { new with stackBottom := true }.run main
  let e := { e with idleCtx := some .idle }
  match pc with
  | none => e.shutdown
  | some _ => e.orFault do
    e.store e.idleCtx
    e.sched pc

/-- The routine has made a call: the rest of its body is what is left. -/
def advance (e : Engine) (id : Nat) (rest : List Action) : Engine :=
  { e with scripts := e.scripts.set id rest }

/-- One call of the routine in control, or its end; or, in `start`, the `yield` after the second
return of `setjmp`, which either leaves `start` or comes back to its end. -/
def step (e : Engine) : Option Engine :=
  match e.control with
  | .routine id =>
    match e.scripts[id]? with
    | none => none
    | some [] => some (e.orFault (e.finish id))
    | some (.run func :: rest) => some ((e.advance id rest).run func).2
    | some (.yield :: rest) => some (e.orFault (e.advance id rest).yield)
    | some (.sched routine :: rest) => some (e.orFault ((e.advance id rest).sched routine))
  | .start =>
    let f := e.orFault e.yield
    some (if f.control = .start then f.shutdown else f)
  | .caller | .fault _ => none

@[simp]
theorem start_eq (main : List Action) : start main =
    { stackBottom := true, curRoutine := some (.routine 0), alive := [0], idleCtx := some .idle,
      scripts := [main], deleted := [], control := .routine 0 } := rfl

/-- Routine `c` is in control and no routine has finished. -/
structure Running (e : Engine) (c : Nat) : Prop where
  control : e.control = .routine c
  stackBottom : e.stackBottom = true
  curRoutine : e.curRoutine = some (.routine c)
  idleCtx : e.idleCtx = some .idle
  registered : c < e.scripts.length
  alive : ∀ id, id ∈ e.alive ↔ id < e.scripts.length
  nodup : e.alive.Nodup
  deleted : e.deleted = []

/-- What one step does as long as no routine has finished. -/
inductive Moves (e : Engine) (c : Nat) : Engine → Prop where
  | finish (h : e.scripts[c]? = some []) : Moves e c
      { e with alive := e.alive.erase c, curRoutine := none, deleted := [c], control := .start }
  | run (func rest : List Action) (h : e.scripts[c]? = some (.run func :: rest)) : Moves e c
      { e with
        scripts := e.scripts.set c rest ++ [func]
        alive := e.scripts.length :: e.alive }
  | keep (a : Action) (rest : List Action) (h : e.scripts[c]? = some (a :: rest))
      (ha : ∀ func, a ≠ .run func) : Moves e c { e with scripts := e.scripts.set c rest }
  | switch (a : Action) (rest : List Action) (h : e.scripts[c]? = some (a :: rest))
      (ha : ∀ func, a ≠ .run func) (d : Nat) (hd : d < e.scripts.length) (hc : d ≠ c) : Moves e c
      { e with
        scripts := e.scripts.set c rest
        curRoutine := some (.routine d)
        control := .routine d }
  /-- A routine that does not exist was scheduled. -/
  | fault (k : Nat) (rest : List Action) (h : e.scripts[c]? = some (.sched (some k) :: rest))
      (hk : ¬k < e.scripts.length) (f : Fault) : Moves e c { e with control := .fault f }

section running

variable {e f : Engine} {c : Nat}

theorem Running.live (h : e.Running c) {id : Nat} (hid : id < e.scripts.length) :
    e.Live (.routine id) := ⟨hid, by simp [h.deleted]⟩

theorem Running.advance (h : e.Running c) (rest : List Action) : (e.advance c rest).Running c where
  control := h.control
  stackBottom := h.stackBottom
  curRoutine := h.curRoutine
  idleCtx := h.idleCtx
  registered := by simpa [Engine.advance] using h.registered
  alive := by simpa [Engine.advance] using h.alive
  nodup := h.nodup
  deleted := h.deleted

theorem Running.store (h : e.Running c) : e.store e.curRoutine = .ok () := by
  rw [h.curRoutine]
  exact if_pos (h.live h.registered)

theorem Running.restore (h : e.Running c) {d : Nat} (hd : d < e.scripts.length) :
    e.restore (some (.routine d)) =
      .ok { e with curRoutine := some (.routine d), control := .routine d } := by
  simp [Engine.restore, h.live hd, h.idleCtx]

theorem Running.nextRoutine (h : e.Running c) {d : Nat} (hd : e.nextRoutine = some d) :
    d < e.scripts.length ∧ d ≠ c := by
  have hn := h.nodup
  have hm := h.alive d
  unfold Engine.nextRoutine at hd
  cases ha : e.alive with
  | nil => simp [ha] at hd
  | cons head rest =>
    rw [ha] at hd hm hn
    simp only [h.curRoutine, Option.some.injEq, Context.routine.injEq] at hd
    by_cases hc : head = c
    · have hr : d ∈ rest := List.mem_of_mem_head? (by simpa [hc] using hd)
      refine ⟨hm.mp (List.mem_cons_of_mem _ hr), ?_⟩
      intro hdc
      exact (List.nodup_cons.mp hn).1 (hc ▸ hdc ▸ hr)
    · obtain rfl : head = d := by simpa [hc] using hd
      exact ⟨hm.mp List.mem_cons_self, hc⟩

theorem Running.yield (h : e.Running c) :
    e.yield = .ok e ∨ ∃ d, d < e.scripts.length ∧ d ≠ c ∧
      e.yield = .ok { e with curRoutine := some (.routine d), control := .routine d } := by
  cases hn : e.nextRoutine with
  | none => exact .inl (by simp [Engine.yield, hn])
  | some d =>
    obtain ⟨hd, hc⟩ := h.nextRoutine hn
    refine .inr ⟨d, hd, hc, ?_⟩
    have hi : e.curRoutine ≠ e.idleCtx := by simp [h.curRoutine, h.idleCtx]
    rw [← h.restore hd]
    simp only [Engine.yield, hn, ne_eq, hi, not_false_eq_true, if_true, h.store]
    rfl

theorem Running.sched_some (h : e.Running c) {k : Nat} (hk : k ≠ c) :
    e.sched (some k) = e.restore (some (.routine k)) := by
  have hne : some (Context.routine k) ≠ e.curRoutine := by simp [h.curRoutine, hk]
  have hs : e.curRoutine.isSome = true := by simp [h.curRoutine]
  simp only [Engine.sched, ne_eq, hne, not_false_eq_true, if_true, hs, h.store]
  rfl

/-- Passing control to a routine that exists. -/
theorem Running.sched (h : e.Running c) {routine : Option Nat}
    (hr : ∀ k, routine = some k → k < e.scripts.length) :
    e.sched routine = .ok e ∨ ∃ d, d < e.scripts.length ∧ d ≠ c ∧
      e.sched routine = .ok { e with curRoutine := some (.routine d), control := .routine d } := by
  cases routine with
  | none => exact h.yield
  | some k =>
    by_cases hk : k = c
    · exact .inl (by simp [Engine.sched, hk, h.curRoutine])
    · exact .inr ⟨k, hr k rfl, hk, by rw [h.sched_some hk, h.restore (hr k rfl)]⟩

theorem Running.sched_unregistered (h : e.Running c) {k : Nat} (hk : ¬k < e.scripts.length) :
    e.sched (some k) = .error (.restore (some (.routine k))) := by
  have hkc : k ≠ c := fun heq => hk (heq ▸ h.registered)
  rw [h.sched_some hkc]
  simp [Engine.restore, Live, hk]

theorem Running.finish (h : e.Running c) : e.finish c = .ok
    { e with alive := e.alive.erase c, curRoutine := none, deleted := [c], control := .start } := by
  simp [Engine.finish, Engine.restore, Live, h.idleCtx, h.deleted]

/-- What one step does as long as no routine has finished. -/
theorem Running.moves (h : e.Running c) (hs : e.step = some f) : e.Moves c f := by
  cases hb : e.scripts[c]? with
  | none =>
    simp only [step, h.control, hb] at hs
    cases hs
  | some script =>
    simp only [step, h.control, hb] at hs
    match script with
    | [] =>
      obtain rfl : e.orFault (e.finish c) = f := by simpa using hs
      rw [h.finish]
      exact .finish hb
    | .run func :: rest =>
      obtain rfl : ((e.advance c rest).run func).2 = f := by simpa using hs
      have hr := Moves.run func rest hb
      simpa [Engine.run, Engine.advance, h.stackBottom] using hr
    | .yield :: rest =>
      obtain rfl : e.orFault (e.advance c rest).yield = f := by simpa using hs
      rcases (h.advance rest).yield with hy | ⟨d, hd, hc, hy⟩
      · rw [hy]
        exact .keep _ rest hb (by simp)
      · rw [hy]
        exact .switch _ rest hb (by simp) d (by simpa [Engine.advance] using hd) hc
    | .sched routine :: rest =>
      obtain rfl : e.orFault ((e.advance c rest).sched routine) = f := by simpa using hs
      have hl : (e.advance c rest).scripts.length = e.scripts.length := by simp [Engine.advance]
      by_cases hr : ∀ k, routine = some k → k < (e.advance c rest).scripts.length
      · rcases (h.advance rest).sched hr with hy | ⟨d, hd, hc, hy⟩
        · rw [hy]
          exact .keep _ rest hb (by simp)
        · rw [hy]
          exact .switch _ rest hb (by simp) d (hl ▸ hd) hc
      · obtain ⟨k, rfl, hk⟩ : ∃ k, routine = some k ∧ ¬k < (e.advance c rest).scripts.length := by
          simpa using hr
        rw [(h.advance rest).sched_unregistered hk]
        exact .fault k rest hb (hl ▸ hk) _

end running

end Engine

end Sysprog.Coroutine
