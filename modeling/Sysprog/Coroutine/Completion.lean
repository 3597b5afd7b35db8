import Sysprog.Coroutine.Engine

namespace Sysprog.Coroutine

/-- The routine that the next call passes to `sched`, where it is such a call. -/
def Engine.scheduled (e : Engine) : Option Nat :=
  match e.control with
  | .routine c =>
    match e.scripts[c]? with
    | some (.sched routine :: _) => routine
    | _ => none
  | _ => none

/-- `sched` is called only with null or a routine that is registered and has not finished. -/
def Engine.SchedLive (e : Engine) : Prop :=
  ∀ k ∈ e.scheduled, e.Live (.routine k)

instance : DecidablePred Engine.SchedLive :=
  fun e => inferInstanceAs (Decidable (∀ k ∈ e.scheduled, e.Live (.routine k)))

/-- A program of the engine: every `sched` of its run is given a routine that can be scheduled. -/
def Valid (main : List Action) : Prop :=
  ∀ e, Reaches Engine.step (Engine.start main) e → e.SchedLive

/-- No context that is null or deleted is stored or resumed, and `start` is back in its caller only
when every routine is done. -/
def Completes (main : List Action) : Prop :=
  ∀ e, Reaches Engine.step (Engine.start main) e →
    (∀ f, e.control ≠ .fault f) ∧
      (e.control = .caller → ∀ id < e.scripts.length, id ∈ e.deleted)

namespace Engine

variable {e f : Engine} {c : Nat}

/-- The last routine in control has finished and `start` got control back. -/
structure Idle (e : Engine) : Prop where
  control : e.control = .start
  curRoutine : e.curRoutine = none
  idleCtx : e.idleCtx = some .idle

/-- `yield` stores into the context of the current routine, and in `start` there is none. -/
theorem Idle.step_of_alive (h : e.Idle) (ha : e.alive ≠ []) :
    e.step = some { e with control := .fault (.store none) } := by
  obtain ⟨head, rest, ha⟩ := List.exists_cons_of_ne_nil ha
  have hn : e.nextRoutine = some head := by simp [nextRoutine, ha, h.curRoutine]
  have hy : e.yield = .error (.store none) := by
    simp only [yield, hn, h.curRoutine, h.idleCtx]
    rfl
  simp [step, h.control, hy, orFault]

theorem Idle.step_of_nil (h : e.Idle) (ha : e.alive = []) : e.step = some e.shutdown := by
  have hy : e.yield = .ok e := by simp [yield, nextRoutine, ha]
  simp [step, h.control, hy, orFault]

theorem Running.step_ne_none (h : e.Running c) : e.step ≠ none := by
  intro hn
  simp only [step, h.control, List.getElem?_eq_getElem h.registered] at hn
  split at hn <;> simp_all

theorem running_start (main : List Action) : (start main).Running 0 := by
  constructor <;> simp

theorem Running.run (h : e.Running c) (func rest : List Action) :
    Running { e with
      scripts := e.scripts.set c rest ++ [func]
      alive := e.scripts.length :: e.alive } c where
  control := h.control
  stackBottom := h.stackBottom
  curRoutine := h.curRoutine
  idleCtx := h.idleCtx
  registered := by
    have hc := h.registered
    simp only [List.length_append, List.length_set, List.length_singleton]
    omega
  alive := by
    intro id
    have ha := h.alive id
    simp only [List.mem_cons, ha, List.length_append, List.length_set, List.length_singleton]
    omega
  nodup := by
    refine List.nodup_cons.mpr ⟨?_, h.nodup⟩
    simp [h.alive]
  deleted := h.deleted

theorem Running.switch (h : e.Running c) {d : Nat} (hd : d < e.scripts.length) :
    Running { e with curRoutine := some (.routine d), control := .routine d } d where
  control := rfl
  stackBottom := h.stackBottom
  curRoutine := rfl
  idleCtx := h.idleCtx
  registered := hd
  alive := h.alive
  nodup := h.nodup
  deleted := h.deleted

end Engine

mutual
/-- The calls that follow from one, those of the routines it registers included. -/
def Action.calls : Action → Nat
  | .run func => 1 + calls func
  | .yield => 1
  | .sched _ => 1

def calls : List Action → Nat
  | [] => 0
  | a :: as => a.calls + calls as
end

theorem Action.calls_pos (a : Action) : 0 < a.calls := by
  cases a <;> simp [Action.calls]

theorem sum_calls_set {l : List (List Action)} {c : Nat} {script : List Action}
    (h : l[c]? = some script) (rest : List Action) :
    ((l.set c rest).map calls).sum + calls script = (l.map calls).sum + calls rest := by
  induction l generalizing c with
  | nil => simp at h
  | cons x l ih =>
    cases c with
    | zero =>
      obtain rfl : x = script := by simpa using h
      simp only [List.set_cons_zero, List.map_cons, List.sum_cons]
      omega
    | succ c =>
      have hc := ih (c := c) (by simpa using h)
      simp only [List.set_cons_succ, List.map_cons, List.sum_cons]
      omega

namespace Engine

variable {e f : Engine} {c : Nat}

/-- The calls left to make and the switches left to `start`. -/
def weight (e : Engine) : Nat :=
  (e.scripts.map calls).sum +
    match e.control with
    | .routine _ => 2
    | .start => 1
    | .caller | .fault _ => 0

theorem Running.weight_lt (h : e.Running c) (hm : e.Moves c f) : f.weight < e.weight := by
  have hw : e.weight = (e.scripts.map calls).sum + 2 := by simp [weight, h.control]
  cases hm with
  | finish => simp [weight, h.control]
  | run func rest hb =>
    have hs := sum_calls_set hb rest
    simp only [calls, Action.calls] at hs
    simp only [weight, h.control, List.map_append, List.sum_append, List.map_cons, List.map_nil,
      List.sum_cons, List.sum_nil]
    omega
  | keep a rest hb =>
    have hs := sum_calls_set hb rest
    have ha := a.calls_pos
    simp only [calls] at hs
    simp only [weight, h.control]
    omega
  | switch a rest hb =>
    have hs := sum_calls_set hb rest
    have ha := a.calls_pos
    simp only [calls] at hs
    simp only [weight, h.control]
    omega
  | fault => simp [weight, h.control]

/-- A second routine exists, or the one there is will register it. -/
def Crowd (e : Engine) : Prop :=
  2 ≤ e.scripts.length ∨ ∃ script ∈ e.scripts, ∃ func, .run func ∈ script

/-- No routine has finished yet; or the first one has, with another one left; or the program is at
the fault. -/
def Doomed (e : Engine) : Prop :=
  (∃ c, e.Running c ∧ e.Crowd) ∨ (e.Idle ∧ e.alive ≠ []) ∨ ∃ f, e.control = .fault f

/-- A script of the only routine is the script of the routine in control. -/
theorem Running.eq_of_mem (h : e.Running c) (hl : ¬2 ≤ e.scripts.length) {script s : List Action}
    (hs : s ∈ e.scripts) (hb : e.scripts[c]? = some script) : s = script := by
  obtain ⟨i, hi, rfl⟩ := List.mem_iff_getElem.mp hs
  have hc := h.registered
  obtain rfl : i = c := by omega
  rw [List.getElem?_eq_getElem hi] at hb
  exact Option.some.inj hb

/-- The first routine to finish leaves another one behind. -/
theorem Running.erase_ne_nil (h : e.Running c) (hc : e.Crowd) (hb : e.scripts[c]? = some []) :
    e.alive.erase c ≠ [] := by
  by_cases hl : 2 ≤ e.scripts.length
  · obtain ⟨d, hd, hdc⟩ : ∃ d, d < e.scripts.length ∧ d ≠ c := by
      by_cases h0 : c = 0
      · exact ⟨1, by omega, by omega⟩
      · exact ⟨0, by omega, by omega⟩
    have hm : d ∈ e.alive.erase c := (List.mem_erase_of_ne hdc).mpr ((h.alive d).mpr hd)
    exact List.ne_nil_of_mem hm
  · obtain hl' | ⟨s, hs, func, hf⟩ := hc
    · exact absurd hl' hl
    · rw [h.eq_of_mem hl hs hb] at hf
      cases hf

theorem Running.crowd_set (h : e.Running c) (hc : e.Crowd) {a : Action} {rest : List Action}
    (hb : e.scripts[c]? = some (a :: rest)) (ha : ∀ func, a ≠ .run func) :
    (e.advance c rest).Crowd := by
  by_cases hl : 2 ≤ e.scripts.length
  · exact .inl (by simpa [Engine.advance] using hl)
  · obtain hl' | ⟨s, hs, func, hf⟩ := hc
    · exact absurd hl' hl
    · rw [h.eq_of_mem hl hs hb] at hf
      rcases List.mem_cons.mp hf with he | hr
      · exact absurd he.symm (ha func)
      · exact .inr ⟨rest, List.mem_set h.registered rest, func, hr⟩

theorem Running.doomed (h : e.Running c) (hc : e.Crowd) (hm : e.Moves c f) : f.Doomed := by
  cases hm with
  | finish hb => exact .inr (.inl ⟨⟨rfl, rfl, h.idleCtx⟩, h.erase_ne_nil hc hb⟩)
  | run func rest hb =>
    refine .inl ⟨c, h.run func rest, .inl ?_⟩
    have hl := h.registered
    simp only [List.length_append, List.length_set, List.length_singleton]
    omega
  | keep a rest hb ha => exact .inl ⟨c, h.advance rest, h.crowd_set hc hb ha⟩
  | switch a rest hb ha d hd hdc =>
    refine .inl ⟨d, (h.advance rest).switch (by simpa [Engine.advance] using hd), .inl ?_⟩
    have hl := h.registered
    simp only [List.length_set]
    omega
  | fault k rest hb hk f => exact .inr (.inr ⟨f, rfl⟩)

theorem Doomed.step (h : e.Doomed) (hs : e.step = some f) : f.Doomed ∧ f.weight < e.weight := by
  rcases h with ⟨c, hr, hc⟩ | ⟨hi, ha⟩ | ⟨g, hg⟩
  · have hm := hr.moves hs
    exact ⟨hr.doomed hc hm, hr.weight_lt hm⟩
  · rw [hi.step_of_alive ha] at hs
    obtain rfl : { e with control := .fault (.store none) } = f := by simpa using hs
    exact ⟨.inr (.inr ⟨_, rfl⟩), by simp [weight, hi.control]⟩
  · simp [Engine.step, hg] at hs

/-- The main routine is the only one and will not register another. -/
structure Alone (e : Engine) : Prop where
  running : e.Running 0
  one : e.scripts.length = 1
  quiet : ∀ script ∈ e.scripts, ∀ func, .run func ∉ script

/-- The main routine is the only one there ever was, and it is done wherever `start` is in
control. -/
def Single (e : Engine) : Prop :=
  e.Alone ∨ e.scripts.length = 1 ∧ e.deleted = [0] ∧ (e.Idle ∧ e.alive = [] ∨ e.control = .caller)

theorem Alone.single (h : e.Alone) (hv : e.SchedLive) (hm : e.Moves 0 f) : f.Single := by
  have hl := h.one
  cases hm with
  | finish hb =>
    refine .inr ⟨hl, rfl, .inl ⟨⟨rfl, rfl, h.running.idleCtx⟩, ?_⟩⟩
    apply List.eq_nil_iff_forall_not_mem.mpr
    intro d hd
    have hr := (h.running.alive d).mp (List.mem_of_mem_erase hd)
    obtain rfl : d = 0 := by omega
    exact h.running.nodup.not_mem_erase hd
  | run func rest hb =>
    have hs := List.mem_of_getElem? hb
    exact absurd List.mem_cons_self (h.quiet _ hs func)
  | keep a rest hb ha =>
    refine .inl ⟨h.running.advance rest, by simpa using hl, ?_⟩
    intro script hs func hf
    rcases List.mem_or_eq_of_mem_set hs with hs | rfl
    · exact h.quiet script hs func hf
    · exact h.quiet _ (List.mem_of_getElem? hb) func (List.mem_cons_of_mem _ hf)
  | switch a rest hb ha d hd hc => omega
  | fault k rest hb hk f =>
    have hk' : k ∈ e.scheduled := by simp [scheduled, h.running.control, hb]
    exact absurd (hv k hk').1 hk

theorem Single.step (h : e.Single) (hv : e.SchedLive) (hs : e.step = some f) : f.Single := by
  rcases h with h | ⟨hl, hd, ⟨hi, ha⟩ | hc⟩
  · exact h.single hv (h.running.moves hs)
  · rw [hi.step_of_nil ha] at hs
    obtain rfl : e.shutdown = f := by simpa using hs
    exact .inr ⟨hl, hd, .inr rfl⟩
  · simp [Engine.step, hc] at hs

end Engine

/-- A program whose main routine registers another one ends at the fault: whichever routine
finishes first, `start` gets control back while another one is alive. -/
theorem exists_fault {main func : List Action} (h : .run func ∈ main) :
    ∃ e f, Reaches Engine.step (Engine.start main) e ∧ e.control = .fault f := by
  have hd : (Engine.start main).Doomed :=
    .inl ⟨0, Engine.running_start main, .inr ⟨main, by simp, func, h⟩⟩
  obtain ⟨e, hr, hd, hn⟩ := exists_halt Engine.step Engine.Doomed Engine.weight
    (fun _ _ => Engine.Doomed.step) _ hd
  rcases hd with ⟨c, hc, -⟩ | ⟨hi, ha⟩ | ⟨f, hf⟩
  · exact absurd hn hc.step_ne_none
  · rw [hi.step_of_alive ha] at hn
    cases hn
  · exact ⟨e, f, hr, hf⟩

theorem single_of_reaches {main : List Action} (hv : Valid main)
    (hq : ∀ func, .run func ∉ main) {e : Engine} (hr : Reaches Engine.step (Engine.start main) e) :
    e.Single := by
  have h0 : (Engine.start main).Single :=
    .inl ⟨Engine.running_start main, rfl, by simpa using hq⟩
  have hi := hr.invariant
    (fun a => Reaches Engine.step (Engine.start main) a ∧ a.Single)
    (fun a b ha hs => ⟨Relation.ReflTransGen.tail ha.1 hs, ha.2.step (hv a ha.1) hs⟩)
    ⟨Relation.ReflTransGen.refl, h0⟩
  exact hi.2

/-- A coroutine section runs to completion exactly when its main routine is its only one. -/
theorem completes_iff {main : List Action} (hv : Valid main) :
    Completes main ↔ ∀ func, .run func ∉ main := by
  constructor
  · intro hc func hf
    obtain ⟨e, f, hr, he⟩ := exists_fault hf
    exact (hc e hr).1 f he
  · intro hq e hr
    rcases single_of_reaches hv hq hr with h | ⟨hl, hd, ⟨hi, -⟩ | hc⟩
    · simp [h.running.control]
    · simp [hi.control]
    · refine ⟨by simp [hc], fun _ id hid => ?_⟩
      obtain rfl : id = 0 := by omega
      simp [hd]

/-- For a run that halts after fewer than `n` steps, being a program can be evaluated. -/
theorem valid_of_everywhere {main : List Action} {n : Nat}
    (h : everywhere Engine.step (fun e => decide e.SchedLive) n (Engine.start main) = true) :
    Valid main := by
  intro e hr
  have he := of_everywhere h hr
  exact of_decide_eq_true he

/-- A main routine that is alone: `yield` and `sched` come back to it at once. -/
def alone : List Action := [.yield, .sched none, .sched (some 0), .yield]

theorem completes_alone : Valid alone ∧ Completes alone := by
  have hv : Valid alone := valid_of_everywhere (n := 8) (by decide)
  exact ⟨hv, (completes_iff hv).mpr (by simp [alone])⟩

/-- `_printer`, whose routines 1 and 2 are `printa` and `printb`. -/
def printer : List Action :=
  [.run [.sched (some 2), .sched (some 2), .sched (some 2)],
    .run [.sched (some 1), .sched (some 1)],
    .sched (some 1)]

/-- `printb` finishes while `printa` and `_printer` are suspended. -/
theorem printer_not_completes : Valid printer ∧ ¬Completes printer := by
  refine ⟨valid_of_everywhere (n := 12) (by decide), ?_⟩
  intro hc
  have hr : .run [.sched (some 2), .sched (some 2), .sched (some 2)] ∈ printer := by
    simp [printer]
  obtain ⟨e, f, hr, he⟩ := exists_fault hr
  exact (hc e hr).1 f he

end Sysprog.Coroutine
