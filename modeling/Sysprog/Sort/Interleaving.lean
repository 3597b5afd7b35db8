import Sysprog.Sort.Program

namespace Sysprog.Sort

/-- One element of `tasks`. The position in its `env` is `task.env`. -/
structure Slot where
  task : Task
  /-- Whose execution `env` was saved from. No line reads it. -/
  owner : Nat
  elapsedTime : Int
  startTime : Int

/-- Where the one stack frame of `q_sort_coro` is, inside a switch or between two of them. -/
inductive Place where
  /-- Where `setjmp` has returned 1, and at the first line. -/
  | resume (p : Point)
  /-- At the line that a task suspended at `p` does next. -/
  | line (p : Point)
  /-- At the loop over `is_finished`. -/
  | check
  /-- At `elapsed_time += clock() - start_time`, with `p` to do after the switch. -/
  | stop (p : Point)
  /-- At `int old_i = curT; curT = (curT + 1) % task_count`. -/
  | pick (p : Point)
  /-- At `setjmp(tasks[old_i].env)`. -/
  | save (p : Point)
  /-- At `longjmp(tasks[curT].env, 1)`. -/
  | jump
  | returned
  deriving DecidableEq

/-- `q_sort_coro` and the variables that it shares between the tasks. -/
structure Frame where
  tasks : List Slot
  curT : Nat
  oldI : Nat
  place : Place
  /-- Whose execution goes on. No line reads it. -/
  running : Nat
  /-- How often `clock()` has been called. -/
  ticks : Nat

namespace Frame

/-- One line, or one step of `check_resched`; no result where `arr` or `stack` is accessed outside
its allocation, and after the return. -/
def step (clock : Nat → Int) (f : Frame) : Option Frame :=
  match f.place with
  | .resume p =>
    -- `check_resched_without_time` takes no time
    if p = .wait then some { f with place := .line p }
    else do
      let s ← f.tasks[f.curT]?
      some { f with
        tasks := f.tasks.set f.curT { s with startTime := clock f.ticks }
        ticks := f.ticks + 1
        place := .line p }
  | .line p => do
    let s ← f.tasks[f.curT]?
    let t ← { s.task with env := p }.step
    some { f with
      tasks := f.tasks.set f.curT { s with task := { t with env := s.task.env } }
      place := if t.env = .wait then .check else .stop t.env }
  | .check =>
    if f.tasks.all fun s => s.task.isFinished then some { f with place := .returned }
    else some { f with place := .pick .wait }
  | .stop p => do
    let s ← f.tasks[f.curT]?
    some { f with
      tasks := f.tasks.set f.curT
        { s with elapsedTime := s.elapsedTime + (clock f.ticks - s.startTime) }
      ticks := f.ticks + 1
      place := .pick p }
  | .pick p =>
    some { f with oldI := f.curT, curT := (f.curT + 1) % f.tasks.length, place := .save p }
  | .save p => do
    let s ← f.tasks[f.oldI]?
    some { f with
      tasks := f.tasks.set f.oldI { s with task := { s.task with env := p }, owner := f.running }
      place := .jump }
  | .jump => do
    let s ← f.tasks[f.curT]?
    some { f with running := s.owner, place := .resume s.task.env }
  | .returned => none

/-- The call of `q_sort_coro`. `main` leaves every `start_time` as it finds it. -/
def start (startTime : Nat → Int) (tasks : List Task) : Frame where
  tasks := tasks.mapIdx fun i t => ⟨t, i, 0, startTime i⟩
  curT := 0
  oldI := 0
  place := .resume .entry
  running := 0
  ticks := 0

/-- The tasks and whose turn it is, without the switches. -/
def pool (f : Frame) : Pool Task := ⟨f.tasks.map Slot.task, f.curT⟩

end Frame

/-- The lines of `q_sort_coro` up to `is_finished = true` on one task, without a switch. -/
def Task.alone : Nat → Task → Option Task
  | 0, _ => none
  | n + 1, t => if t.isFinished then some t else t.step.bind (alone n)

theorem Task.alone_of_lands {n : Nat} {t f : Task} (h : Task.routine.Lands n t f) :
    t.alone (n + 1) = some f := by
  induction h with
  | rest h =>
    have hd : _ = true := h.done
    exact if_pos hd
  | @step n s t f hd hs _ ih =>
    have hd' : s.isFinished = false := hd
    have hs' : s.step = some t := hs
    rw [alone, hd', hs', Option.bind_some]
    exact ih

namespace Frame

variable {clock : Nat → Int} {f g : Frame}

/-- Every position is saved where it belongs, and the code that goes on is that of `curT`. -/
structure Safe (f : Frame) : Prop where
  owners : ∀ (i : Nat) (s : Slot), f.tasks[i]? = some s → s.owner = i
  cur : f.curT < f.tasks.length
  place : match f.place with
    | .resume p => f.running = f.curT ∧ ∃ s, f.tasks[f.curT]? = some s ∧ s.task.env = p
    | .line p => f.running = f.curT ∧ ∃ s, f.tasks[f.curT]? = some s ∧ s.task.env = p
    | .check => f.running = f.curT
    | .stop _ => f.running = f.curT
    | .pick _ => f.running = f.curT
    | .save _ => f.running = f.oldI
    | .jump => True
    | .returned => ∀ s ∈ f.tasks, s.task.isFinished = true

theorem owners_set (h : ∀ (i : Nat) (s : Slot), f.tasks[i]? = some s → s.owner = i) {k : Nat}
    {s : Slot} (hs : s.owner = k) (i : Nat) (r : Slot) (hr : (f.tasks.set k s)[i]? = some r) :
    r.owner = i := by
  by_cases hi : k = i
  · subst hi
    obtain ⟨-, rfl⟩ : k < f.tasks.length ∧ s = r := by simpa [List.getElem?_set] using hr
    exact hs
  · rw [List.getElem?_set_ne hi] at hr
    exact h i r hr

/-- A step keeps this, and leaves the tasks other than the one whose execution goes on. -/
theorem Safe.step (h : f.Safe) (hs : f.step clock = some g) :
    g.Safe ∧ ∀ i, i ≠ f.running → g.tasks[i]? = f.tasks[i]? := by
  obtain ⟨ho, hc, hp⟩ := h
  have hset : ∀ (k : Nat) (s : Slot), f.running = k → ∀ i, i ≠ f.running →
      (f.tasks.set k s)[i]? = f.tasks[i]? :=
    fun k s hk i hi => List.getElem?_set_ne (hk ▸ hi.symm)
  cases hf : f.place with
  | resume p =>
    simp only [hf] at hp
    obtain ⟨hrun, s, hcur, he⟩ := hp
    by_cases hw : p = .wait
    · simp only [Frame.step, hf, if_pos hw] at hs
      obtain rfl := Option.some.inj hs
      exact ⟨⟨ho, hc, hrun, s, hcur, he⟩, fun _ _ => rfl⟩
    · simp only [Frame.step, hf, if_neg hw, hcur, Option.bind_eq_bind, Option.bind_some] at hs
      obtain rfl := Option.some.inj hs
      refine ⟨⟨owners_set ho (ho _ s hcur), by simpa using hc, hrun, ?_⟩, hset _ _ hrun⟩
      exact ⟨{ s with startTime := clock f.ticks }, by simp [hc], he⟩
  | line p =>
    simp only [hf] at hp
    obtain ⟨hrun, s, hcur, he⟩ := hp
    simp only [Frame.step, hf, hcur, Option.bind_eq_bind, Option.bind_some] at hs
    obtain ⟨t, ht, hg⟩ := Option.bind_eq_some_iff.mp hs
    obtain rfl := Option.some.inj hg
    refine ⟨⟨owners_set ho (ho _ s hcur), by simpa using hc, ?_⟩, hset _ _ hrun⟩
    by_cases hw : t.env = .wait
    · simpa only [hw, if_true] using hrun
    · simpa only [hw, if_false] using hrun
  | check =>
    simp only [hf] at hp
    by_cases ha : (f.tasks.all fun s => s.task.isFinished) = true
    · simp only [Frame.step, hf, if_pos ha] at hs
      obtain rfl := Option.some.inj hs
      exact ⟨⟨ho, hc, List.all_eq_true.mp ha⟩, fun _ _ => rfl⟩
    · simp only [Frame.step, hf, if_neg ha] at hs
      obtain rfl := Option.some.inj hs
      exact ⟨⟨ho, hc, hp⟩, fun _ _ => rfl⟩
  | stop p =>
    simp only [hf] at hp
    simp only [Frame.step, hf, Option.bind_eq_bind] at hs
    obtain ⟨s, hcur, hg⟩ := Option.bind_eq_some_iff.mp hs
    obtain rfl := Option.some.inj hg
    exact ⟨⟨owners_set ho (ho _ s hcur), by simpa using hc, hp⟩, hset _ _ hp⟩
  | pick p =>
    simp only [hf] at hp
    simp only [Frame.step, hf] at hs
    obtain rfl := Option.some.inj hs
    exact ⟨⟨ho, Nat.mod_lt _ (Nat.zero_lt_of_lt hc), hp⟩, fun _ _ => rfl⟩
  | save p =>
    simp only [hf] at hp
    simp only [Frame.step, hf, Option.bind_eq_bind] at hs
    obtain ⟨s, hold, hg⟩ := Option.bind_eq_some_iff.mp hs
    obtain rfl := Option.some.inj hg
    exact ⟨⟨owners_set ho hp, by simpa using hc, trivial⟩, hset _ _ hp⟩
  | jump =>
    simp only [Frame.step, hf, Option.bind_eq_bind] at hs
    obtain ⟨s, hcur, hg⟩ := Option.bind_eq_some_iff.mp hs
    obtain rfl := Option.some.inj hg
    exact ⟨⟨ho, hc, ho _ s hcur, s, hcur, rfl⟩, fun _ _ => rfl⟩
  | returned =>
    simp [Frame.step, hf] at hs

theorem start_safe (startTime : Nat → Int) {tasks : List Task} (hne : tasks ≠ [])
    (he : ∀ t ∈ tasks, t.env = .entry) : (start startTime tasks).Safe := by
  obtain ⟨t, ts, rfl⟩ := List.exists_cons_of_ne_nil hne
  refine ⟨?_, by simp [start], rfl, ⟨t, 0, 0, startTime 0⟩, by simp [start], he t (by simp)⟩
  intro i s hs
  simp only [start, List.getElem?_mapIdx] at hs
  obtain ⟨t', -, rfl⟩ := Option.map_eq_some_iff.mp hs
  rfl

theorem start_pool (startTime : Nat → Int) (tasks : List Task) :
    (start startTime tasks).pool = ⟨tasks, 0⟩ := by
  have hmap : (tasks.mapIdx fun i t => (⟨t, i, 0, startTime i⟩ : Slot)).map Slot.task = tasks := by
    apply List.ext_getElem?
    intro i
    simp [List.getElem?_mapIdx, Function.comp_def]
  exact congrArg (Pool.mk · 0) hmap

theorem Safe.reaches {g : Frame} (h : f.Safe) (hr : Reaches (Frame.step clock) f g) : g.Safe :=
  hr.invariant Safe (fun _ _ ha hab => (ha.step hab).1) h

section turn

variable (clock)

variable {p : Point} {s : Slot} {t : Task}

theorem step_resume (hf : f.place = .resume p) (hs : f.tasks[f.curT]? = some s) :
    ∃ st n, f.step clock = some { f with
      tasks := f.tasks.set f.curT { s with startTime := st }, ticks := n, place := .line p } := by
  by_cases hw : p = .wait
  · refine ⟨s.startTime, f.ticks, ?_⟩
    simp only [step, hf, if_pos hw, Routine.set_of_getElem? hs]
  · refine ⟨clock f.ticks, f.ticks + 1, ?_⟩
    simp only [step, hf, if_neg hw, hs, Option.bind_eq_bind, Option.bind_some]

theorem step_line (hf : f.place = .line p) (hs : f.tasks[f.curT]? = some s) (he : s.task.env = p)
    (ht : s.task.step = some t) : f.step clock = some { f with
      tasks := f.tasks.set f.curT { s with task := { t with env := p } }
      place := if t.env = .wait then .check else .stop t.env } := by
  obtain rfl := he
  have ht' : { s.task with env := s.task.env }.step = some t := ht
  simp only [step, hf, hs, ht', Option.bind_eq_bind, Option.bind_some]

theorem step_stop (hf : f.place = .stop p) (hs : f.tasks[f.curT]? = some s) :
    f.step clock = some { f with
      tasks := f.tasks.set f.curT
        { s with elapsedTime := s.elapsedTime + (clock f.ticks - s.startTime) }
      ticks := f.ticks + 1
      place := .pick p } := by
  simp only [step, hf, hs, Option.bind_eq_bind, Option.bind_some]

theorem step_check (hf : f.place = .check) : f.step clock = some { f with
    place := if f.tasks.all fun s => s.task.isFinished then .returned else .pick .wait } := by
  rw [step, hf]
  split_ifs <;> rfl

/-- The position in `env` is no matter for the loop over `is_finished`. -/
theorem all_set {k : Nat} {r : Slot} (hr : r.task = { t with env := p }) :
    (f.tasks.set k r).all (fun s => s.task.isFinished) =
      (f.pool.states.set k t).all Task.isFinished := by
  have hmap : (f.tasks.set k r).map (fun s => s.task.isFinished) =
      (f.pool.states.set k t).map Task.isFinished := by
    simp [pool, List.map_set, hr, Function.comp_def]
  have hid := congrArg (List.all · id) hmap
  rw [List.all_map, List.all_map] at hid
  exact hid

/-- From the resumption of a task to the end of its line. -/
theorem reaches_line (hf : f.place = .resume p) (hs : f.tasks[f.curT]? = some s)
    (he : s.task.env = p) (ht : s.task.step = some t) :
    ∃ g r, Reaches (step clock) f g ∧ g.tasks = f.tasks.set f.curT r ∧ g.curT = f.curT ∧
      g.place = (if t.env = .wait then .check else .stop t.env) ∧ r.task = { t with env := p } := by
  have hc := (List.getElem?_eq_some_iff.mp hs).1
  obtain ⟨st, n, h1⟩ := step_resume clock hf hs
  have h2 := step_line clock (f := { f with
      tasks := f.tasks.set f.curT { s with startTime := st }, ticks := n, place := .line p })
    rfl (List.getElem?_set_self hc) he ht
  rw [List.set_set] at h2
  exact ⟨_, _, .step h1 (.single h2), rfl, rfl, rfl, rfl⟩

/-- From there to the switch, where the task does not return. -/
theorem reaches_pick (hf : f.place = .resume p) (hs : f.tasks[f.curT]? = some s)
    (he : s.task.env = p) (ht : s.task.step = some t)
    (hgo : t.env = .wait → (f.pool.states.set f.curT t).all Task.isFinished = false) :
    ∃ g r, Reaches (step clock) f g ∧ g.tasks = f.tasks.set f.curT r ∧ g.curT = f.curT ∧
      g.place = .pick t.env ∧ r.task = { t with env := p } := by
  have hc := (List.getElem?_eq_some_iff.mp hs).1
  obtain ⟨g, r, hr, htasks, hcur, hplace, hrt⟩ := reaches_line clock hf hs he ht
  by_cases hw : t.env = .wait
  · rw [if_pos hw] at hplace
    have hall := hgo hw
    rw [← all_set hrt, ← htasks] at hall
    have hcheck := step_check clock hplace
    simp only [hall, Bool.false_eq_true, if_false] at hcheck
    exact ⟨_, r, hr.trans (.single hcheck), htasks, hcur, congrArg Place.pick hw.symm, hrt⟩
  · rw [if_neg hw] at hplace
    have hg : g.tasks[g.curT]? = some r := by rw [htasks, hcur, List.getElem?_set_self hc]
    have hstop := step_stop clock hplace hg
    rw [htasks, hcur, List.set_set] at hstop
    exact ⟨_, _, hr.trans (.single hstop), rfl, rfl, rfl, hrt⟩

/-- From `int old_i = curT` to the resumption of the next task. -/
theorem reaches_resume (hf : f.place = .pick p) (hs : f.tasks[f.curT]? = some s) :
    ∃ g q, Reaches (step clock) f g ∧ g.place = .resume q ∧
      g.pool = ⟨f.pool.states.set f.curT { s.task with env := p }, (f.curT + 1) % f.tasks.length⟩ := by
  have hc := (List.getElem?_eq_some_iff.mp hs).1
  let f1 : Frame :=
    { f with oldI := f.curT, curT := (f.curT + 1) % f.tasks.length, place := .save p }
  let f2 : Frame := { f1 with
    tasks := f.tasks.set f.curT { s with task := { s.task with env := p }, owner := f.running }
    place := .jump }
  have h1 : f.step clock = some f1 := by simp only [step, hf, f1]
  have h2 : f1.step clock = some f2 := by
    simp only [step, f1, f2, hs, Option.bind_eq_bind, Option.bind_some]
  have hlt : f2.curT < f2.tasks.length := by
    simpa [f1, f2] using Nat.mod_lt _ (Nat.zero_lt_of_lt hc)
  have hr := List.getElem?_eq_getElem hlt
  have h3 : f2.step clock = some { f2 with
      running := f2.tasks[f2.curT].owner, place := .resume f2.tasks[f2.curT].task.env } := by
    rw [step, hr]
    rfl
  refine ⟨_, _, .step h1 (.step h2 (.single h3)), rfl, ?_⟩
  simp [pool, f1, f2, List.map_set]

theorem turn_pool (hs : f.tasks[f.curT]? = some s) (ht : s.task.step = some t) :
    Task.routine.turn f.pool =
      if t.env = .wait ∧ (f.pool.states.set f.curT t).all Task.isFinished = true then
        .returned (f.pool.states.set f.curT t)
      else .running ⟨f.pool.states.set f.curT t, (f.curT + 1) % f.tasks.length⟩ := by
  have hcur : f.pool.states[f.pool.cur]? = some s.task := by simp [pool, hs]
  have hst : Task.routine.step s.task = some t := ht
  simp only [Routine.turn, hcur, hst, List.length_set]
  simp [pool, Task.routine]

/-- A turn, with all its switches. -/
theorem Safe.turn (h : f.Safe) (hf : f.place = .resume p) :
    match Task.routine.turn f.pool with
    | .fault => True
    | .running P => ∃ g q, Reaches (Frame.step clock) f g ∧ g.place = .resume q ∧ g.pool = P
    | .returned ts => ∃ g, Reaches (Frame.step clock) f g ∧ g.place = .returned ∧
        g.tasks.map (fun s => s.task.arr) = ts.map Task.arr := by
  have hp := h.place
  simp only [hf] at hp
  obtain ⟨-, s, hs, he⟩ := hp
  cases ht : s.task.step with
  | none =>
    have hcur : f.pool.states[f.pool.cur]? = some s.task := by simp [pool, hs]
    simp [Routine.turn, hcur, Task.routine, ht]
  | some t =>
    have hc := (List.getElem?_eq_some_iff.mp hs).1
    rw [turn_pool hs ht]
    by_cases hd : t.env = .wait ∧ (f.pool.states.set f.curT t).all Task.isFinished = true
    · obtain ⟨g, r, hr, htasks, hcur, hplace, hrt⟩ := reaches_line clock hf hs he ht
      rw [if_pos hd.1] at hplace
      have hall : (g.tasks.all fun s => s.task.isFinished) = true := by
        rw [htasks, all_set hrt]
        exact hd.2
      have hstep := step_check clock hplace
      rw [if_pos hd]
      refine ⟨_, hr.trans (.single hstep), if_pos hall, ?_⟩
      simp [htasks, pool, List.map_set, hrt, Function.comp_def]
    · have hgo : t.env = .wait → (f.pool.states.set f.curT t).all Task.isFinished = false := by
        intro hw
        simpa [hw] using hd
      obtain ⟨g, r, hr, htasks, hcur, hplace, hrt⟩ := reaches_pick clock hf hs he ht hgo
      have hg : g.tasks[g.curT]? = some r := by rw [htasks, hcur, List.getElem?_set_self hc]
      obtain ⟨g', q, hr', hq, hpool⟩ := reaches_resume clock hplace hg
      rw [if_neg hd]
      refine ⟨g', q, hr.trans hr', hq, ?_⟩
      rw [hpool, hrt]
      simp [pool, htasks, hcur, List.map_set]

/-- A run of turns, with all its switches. -/
theorem Safe.run {k : Nat} {ts : List Task} (h : f.Safe) (hf : f.place = .resume p)
    (hk : Task.routine.run k f.pool = .returned ts) :
    ∃ g, Reaches (Frame.step clock) f g ∧ g.place = .returned ∧
      g.tasks.map (fun s => s.task.arr) = ts.map Task.arr := by
  induction k generalizing f p with
  | zero => cases hk
  | succ k ih =>
    have hturn := h.turn clock hf
    cases ht : Task.routine.turn f.pool with
    | fault => simp [Routine.run, ht] at hk
    | running P =>
      simp only [ht] at hturn
      simp only [Routine.run, ht] at hk
      obtain ⟨g, q, hr, hq, rfl⟩ := hturn
      obtain ⟨g', hr', hret, harr⟩ := ih (h.reaches hr) hq hk
      exact ⟨g', hr.trans hr', hret, harr⟩
    | returned us =>
      simp only [ht] at hturn
      obtain rfl : us = ts := by simpa [Routine.run, ht] using hk
      exact hturn

end turn

/-- What holds in a frame that a run comes to: a task is resumed where it was suspended itself, a
step leaves all other tasks as they are, and the return is that of all. -/
structure Isolated (clock : Nat → Int) (f : Frame) : Prop where
  resumed : ∀ p, f.place = .resume p →
    ∃ s, f.tasks[f.curT]? = some s ∧ s.task.env = p ∧ s.owner = f.curT ∧ f.running = f.curT
  others : ∀ g i, f.step clock = some g → i ≠ f.running → g.tasks[i]? = f.tasks[i]?
  returned : f.place = .returned → ∀ s ∈ f.tasks, s.task.isFinished = true

theorem Safe.isolated (h : f.Safe) (clock : Nat → Int) : f.Isolated clock where
  resumed := by
    intro p hf
    have hp := h.place
    simp only [hf] at hp
    obtain ⟨hrun, s, hs, he⟩ := hp
    exact ⟨s, hs, he, h.owners _ s hs, hrun⟩
  others := fun g i hs hi => (h.step hs).2 i hi
  returned := by
    intro hf
    have hp := h.place
    simpa only [hf] using hp

end Frame

theorem File.task_env {file : File} {t : Task} (h : file.task = some t) : t.env = .entry := by
  simp only [File.task, Option.bind_eq_bind, Option.bind_eq_some_iff, Option.some.injEq] at h
  obtain ⟨_, _, _, _, _, _, rfl⟩ := h
  rfl

theorem readFiles_env {files : List File} {all : Nat} {tasks : List Task}
    (h : readFiles files = some (all, tasks)) : ∀ t ∈ tasks, t.env = .entry := by
  induction files generalizing all tasks with
  | nil =>
    obtain ⟨-, rfl⟩ : 0 = all ∧ [] = tasks := by simpa [readFiles] using h
    simp
  | cons file files ih =>
    simp only [readFiles, Option.bind_eq_bind, Option.bind_eq_some_iff] at h
    obtain ⟨t, ht, ⟨rest, ts⟩, hr, he⟩ := h
    obtain ⟨-, rfl⟩ : file.N + rest = all ∧ t :: ts = tasks := by simpa using he
    intro u hu
    rcases List.mem_cons.mp hu with rfl | hu
    · exact File.task_env ht
    · exact ih hr u hu

/-- The tasks take turns without any effect on each other, and `q_sort_coro` returns with every
array as its task alone leaves it. -/
theorem interleaving (clock startTime : Nat → Int) {files : List File} (hne : files ≠ [])
    (h : ∀ file ∈ files, 2 ≤ file.N) :
    ∃ all tasks, readFiles files = some (all, tasks) ∧ tasks.length = files.length ∧
      (∃ f, Reaches (Frame.step clock) (.start startTime tasks) f ∧ f.place = .returned) ∧
      ∀ f, Reaches (Frame.step clock) (.start startTime tasks) f → f.Isolated clock ∧
        (f.place = .returned → ∀ (i : Nat) (t : Task), tasks[i]? = some t →
          ∃ (s : Slot) (e : Task), f.tasks[i]? = some s ∧ (∃ n, t.alone n = some e) ∧
            s.task.arr = e.arr) := by
  obtain ⟨tasks, fs, hr, hl, hs⟩ := readFiles_eq_some h
  have hlen : tasks.length = files.length := hl.length_eq.trans hs.length_eq.symm
  have htn : tasks ≠ [] := by
    intro he
    simp [he, eq_comm, hne] at hlen
  have hsafe := Frame.start_safe startTime htn (readFiles_env hr)
  obtain ⟨k, hk⟩ := Routine.exists_returned htn hl
  rw [← Frame.start_pool startTime] at hk
  obtain ⟨g, hg, hret, harr⟩ := hsafe.run clock rfl hk
  refine ⟨_, tasks, hr, hlen, ⟨g, hg, hret⟩, ?_⟩
  intro f hf
  refine ⟨(hsafe.reaches hf).isolated clock, ?_⟩
  intro hfr i t ht
  obtain rfl : f = g := hf.halt_unique hg (by simp [Frame.step, hfr]) (by simp [Frame.step, hret])
  have hi := (List.getElem?_eq_some_iff.mp ht).1
  have hi' : i < fs.length := hl.length_eq ▸ hi
  obtain ⟨n, hn⟩ := (List.forall₂_iff_get.mp hl).2 i hi hi'
  obtain rfl : tasks.get ⟨i, hi⟩ = t := by simpa [hi] using ht
  have hslot : (f.tasks.map fun s => s.task.arr)[i]? = some fs[i].arr := by simp [harr, hi']
  rw [List.getElem?_map] at hslot
  obtain ⟨s, hs, he⟩ := Option.map_eq_some_iff.mp hslot
  exact ⟨s, _, hs, ⟨n + 1, Task.alone_of_lands hn⟩, he⟩

/-- Two tasks of two and three numbers. -/
theorem interleaving_two_files :
    ∃ all tasks, readFiles [⟨2, [3, 1], rfl⟩, ⟨3, [2, 2, -1], rfl⟩] = some (all, tasks) ∧
      ∃ f, Reaches (Frame.step fun n => n) (.start (fun _ => 0) tasks) f ∧ f.place = .returned := by
  have hfiles : ∀ file ∈ ([⟨2, [3, 1], rfl⟩, ⟨3, [2, 2, -1], rfl⟩] : List File), 2 ≤ file.N := by simp
  obtain ⟨all, tasks, hr, -, hret, -⟩ :=
    interleaving (fun n => n) (fun _ => 0) (List.cons_ne_nil _ _) hfiles
  exact ⟨all, tasks, hr, hret⟩

end Sysprog.Sort
