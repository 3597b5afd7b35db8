import Sysprog.Lib.Run

namespace Sysprog.Monitor

variable {α β σ τ : Type}

/-- What a client of a shared object sees, and the moment in between at which a call takes effect. -/
inductive Event (α β : Type) where
  | invoke (thread : Nat) (a : α)
  | commit (thread : Nat) (a : α) (b : β)
  | respond (thread : Nat) (b : β)

namespace Event

def visible : Event α β → Bool
  | commit _ _ _ => false
  | invoke _ _ | respond _ _ => true

/-- The call that takes effect, with its answer. -/
def effect : Event α β → Option (α × β)
  | commit _ a b => some (a, b)
  | invoke _ _ | respond _ _ => none

end Event

/-- Where a thread is with its call on an atomic object. -/
inductive Stage (α β : Type) where
  | idle
  | pending (a : α)
  | answered (b : β)

/-- An object whose calls take effect at once, some time between invocation and return. -/
structure Atomic (α β σ : Type) where
  memory : σ
  stage : Nat → Stage α β

namespace Atomic

def start (s : σ) : Atomic α β σ := ⟨s, fun _ => .idle⟩

def setStage (x : Atomic α β σ) (t : Nat) (g : Stage α β) : Atomic α β σ :=
  { x with stage := Function.update x.stage t g }

/-- A relation: the event says what happens, and the state whether it can. -/
inductive Step (call : α → σ → Option (β × σ)) : Atomic α β σ → Event α β → Atomic α β σ → Prop
  | invoke {x : Atomic α β σ} {t : Nat} {a : α} : x.stage t = .idle →
    Step call x (.invoke t a) (x.setStage t (.pending a))
  | commit {x : Atomic α β σ} {t : Nat} {a : α} {b : β} {s : σ} : x.stage t = .pending a →
    call a x.memory = some (b, s) →
    Step call x (.commit t a b) { x.setStage t (.answered b) with memory := s }
  | respond {x : Atomic α β σ} {t : Nat} {b : β} : x.stage t = .answered b →
    Step call x (.respond t b) (x.setStage t .idle)

inductive Steps (call : α → σ → Option (β × σ)) :
    Atomic α β σ → List (Event α β) → Atomic α β σ → Prop
  | nil {x : Atomic α β σ} : Steps call x [] x
  | cons {x y z : Atomic α β σ} {e : Event α β} {es : List (Event α β)} : Step call x e y →
    Steps call y es z → Steps call x (e :: es) z

end Atomic

namespace Atomic

variable {call : α → σ → Option (β × σ)} {spec : α → τ → Option (β × τ)} {x y : Atomic α β σ}
  {es : List (Event α β)}

/-- The calls of an atomic object, in the order in which they take effect, are a run of it. -/
theorem Steps.sequential (h : Steps call x es y) :
    run call ((es.filterMap Event.effect).map Prod.fst) x.memory =
      some ((es.filterMap Event.effect).map Prod.snd, y.memory) := by
  induction h with
  | nil => rfl
  | @cons x y z e es hs _ ih =>
    cases hs with
    | invoke _ => exact ih
    | @commit t a b s _ hc =>
      change run call (a :: (es.filterMap Event.effect).map Prod.fst) x.memory = _
      rw [run_cons hc]
      exact congrArg (Option.map fun r => (b :: r.1, r.2)) ih
    | respond _ => exact ih

theorem Steps.append {z : Atomic α β σ} {fs : List (Event α β)} (h : Steps call x es y)
    (h' : Steps call y fs z) : Steps call x (es ++ fs) z := by
  induction h with
  | nil => exact h'
  | cons hs _ ih => exact .cons hs (ih h')

/-- An atomic object can be put in the place of one it refines. -/
theorem Steps.refines (R : σ → τ → Prop)
    (hcall : ∀ a s t, R s t → Option.Rel (fun x y => x.1 = y.1 ∧ R x.2 y.2) (call a s) (spec a t))
    (h : Steps call x es y) {m : τ} (hR : R x.memory m) :
    ∃ n, R y.memory n ∧ Steps spec ⟨m, x.stage⟩ es ⟨n, y.stage⟩ := by
  induction h generalizing m with
  | nil => exact ⟨m, hR, .nil⟩
  | @cons x y z e es hs _ ih =>
    cases hs with
    | invoke hg =>
      obtain ⟨n, hn, hrest⟩ := ih hR
      exact ⟨n, hn, .cons (.invoke hg) hrest⟩
    | @commit t a b s hg hc =>
      have hrel := hcall a x.memory m hR
      rw [hc] at hrel
      cases hm : spec a m with
      | none => rw [hm] at hrel; cases hrel
      | some r =>
        rw [hm] at hrel
        cases hrel with
        | some hrel =>
          obtain ⟨b', m'⟩ := r
          obtain ⟨rfl, hR'⟩ : b = b' ∧ R s m' := hrel
          obtain ⟨n, hn, hrest⟩ := ih hR'
          exact ⟨n, hn, .cons (.commit hg hm) hrest⟩
    | respond hg =>
      obtain ⟨n, hn, hrest⟩ := ih hR
      exact ⟨n, hn, .cons (.respond hg) hrest⟩

end Atomic

/-- The body of a method as accesses to memory: what an access writes, and how the body goes on
after what it has read. -/
inductive Code (σ β : Type) where
  | done (b : β)
  | access (write : σ → Option σ) (next : σ → Code σ β)

/-- The body without anyone in between. -/
def Code.run : Code σ β → σ → Option (β × σ)
  | done b, s => some (b, s)
  | access write next, s => (write s).bind fun s' => (next s).run s'

/-- Where a thread is in a method that holds the lock of the object for the time of its body. -/
inductive Phase (α β σ : Type) where
  | idle
  | waiting (a : α)
  | inside (a : α) (code : Code σ β)
  | leaving (b : β)

/-- The abstract side of a phase: inside the body the call has still to take effect. -/
def Phase.stage : Phase α β σ → Stage α β
  | idle => .idle
  | waiting a | inside a _ => .pending a
  | leaving b => .answered b

/-- An object with a mutex, and any number of threads that use it. -/
structure State (α β σ : Type) where
  memory : σ
  holder : Option Nat
  phase : Nat → Phase α β σ

namespace State

inductive Action (α : Type) where
  | invoke (thread : Nat) (a : α)
  | acquire (thread : Nat)
  | access (thread : Nat)
  | release (thread : Nat)
  | respond (thread : Nat)

def start (s : σ) : State α β σ := ⟨s, none, fun _ => .idle⟩

def setPhase (m : State α β σ) (t : Nat) (p : Phase α β σ) : State α β σ :=
  { m with phase := Function.update m.phase t p }

/-- One step of one thread; `none` when it is not at this step, when the lock is taken, or when the
access is undefined. -/
def step (body : α → Code σ β) : Action α → State α β σ → Option (Option (Event α β) × State α β σ)
  | .invoke t a, m =>
    match m.phase t with
    | .idle => some (some (.invoke t a), m.setPhase t (.waiting a))
    | _ => none
  | .acquire t, m =>
    match m.phase t with
    | .waiting a =>
      if m.holder = none then
        some (none, { m.setPhase t (.inside a (body a)) with holder := some t })
      else none
    | _ => none
  | .access t, m =>
    match m.phase t with
    | .inside a (.access write next) =>
      (write m.memory).map fun s =>
        (none, { m.setPhase t (.inside a (next m.memory)) with memory := s })
    | _ => none
  | .release t, m =>
    match m.phase t with
    | .inside _ (.done b) => some (none, { m.setPhase t (.leaving b) with holder := none })
    | _ => none
  | .respond t, m =>
    match m.phase t with
    | .leaving b => some (some (.respond t b), m.setPhase t .idle)
    | _ => none

/-- What a step has done. -/
inductive Moves (body : α → Code σ β) (m : State α β σ) :
    Action α → Option (Event α β) → State α β σ → Prop
  | invoke {t : Nat} {a : α} : m.phase t = .idle →
    Moves body m (.invoke t a) (some (.invoke t a)) (m.setPhase t (.waiting a))
  | acquire {t : Nat} {a : α} : m.phase t = .waiting a → m.holder = none →
    Moves body m (.acquire t) none { m.setPhase t (.inside a (body a)) with holder := some t }
  | access {t : Nat} {a : α} {write : σ → Option σ} {next : σ → Code σ β} {s : σ} :
    m.phase t = .inside a (.access write next) → write m.memory = some s →
    Moves body m (.access t) none { m.setPhase t (.inside a (next m.memory)) with memory := s }
  | release {t : Nat} {a : α} {b : β} : m.phase t = .inside a (.done b) →
    Moves body m (.release t) none { m.setPhase t (.leaving b) with holder := none }
  | respond {t : Nat} {b : β} : m.phase t = .leaving b →
    Moves body m (.respond t) (some (.respond t b)) (m.setPhase t .idle)

variable {body : α → Code σ β} {m n : State α β σ} {c : Action α} {e : Option (Event α β)}

theorem moves_of_step (h : step body c m = some (e, n)) : Moves body m c e n := by
  cases c with
  | invoke t a =>
    cases hp : m.phase t with
    | idle =>
      simp only [step, hp, Option.some.injEq, Prod.mk.injEq] at h
      obtain ⟨rfl, rfl⟩ := h
      exact .invoke hp
    | waiting | inside | leaving => simp [step, hp] at h
  | acquire t =>
    cases hp : m.phase t with
    | waiting a =>
      simp only [step, hp] at h
      split_ifs at h with hh
      obtain ⟨rfl, rfl⟩ := Prod.mk.inj (Option.some.inj h)
      exact .acquire hp hh
    | idle | inside | leaving => simp [step, hp] at h
  | access t =>
    cases hp : m.phase t with
    | inside a code =>
      cases code with
      | done b => simp [step, hp] at h
      | access write next =>
        simp only [step, hp] at h
        obtain ⟨s, hs, he⟩ := Option.map_eq_some_iff.mp h
        obtain ⟨rfl, rfl⟩ := Prod.mk.inj he
        exact .access hp hs
    | idle | waiting | leaving => simp [step, hp] at h
  | release t =>
    cases hp : m.phase t with
    | inside a code =>
      cases code with
      | done b =>
        simp only [step, hp, Option.some.injEq, Prod.mk.injEq] at h
        obtain ⟨rfl, rfl⟩ := h
        exact .release hp
      | access write next => simp [step, hp] at h
    | idle | waiting | leaving => simp [step, hp] at h
  | respond t =>
    cases hp : m.phase t with
    | leaving b =>
      simp only [step, hp, Option.some.injEq, Prod.mk.injEq] at h
      obtain ⟨rfl, rfl⟩ := h
      exact .respond hp
    | idle | waiting | inside => simp [step, hp] at h

@[simp] theorem setPhase_self (m : State α β σ) (t : Nat) (p : Phase α β σ) :
    (m.setPhase t p).phase t = p := Function.update_self _ _ _

theorem setPhase_ne (m : State α β σ) {t u : Nat} (h : u ≠ t) (p : Phase α β σ) :
    (m.setPhase t p).phase u = m.phase u := Function.update_of_ne h _ _

theorem stage_setPhase (m : State α β σ) (t : Nat) (p : Phase α β σ) :
    (fun u => ((m.setPhase t p).phase u).stage) =
      Function.update (fun u => (m.phase u).stage) t p.stage := by
  funext u
  by_cases hu : u = t
  · subst hu
    simp
  · rw [setPhase_ne m hu, Function.update_of_ne hu]

/-- A thread is in the body of its method. -/
def Inside (m : State α β σ) (t : Nat) : Prop := ∃ a code, m.phase t = .inside a code

/-- The monitor and an atomic object: as long as a thread is inside, the call of that thread has not
taken effect, and what is left of the body leads where the whole body would have led. -/
structure Simulates (body : α → Code σ β) (m : State α β σ) (s : σ) : Prop where
  sole : ∀ t, m.Inside t → m.holder = some t
  free : m.holder = none → m.memory = s
  held : ∀ t, m.holder = some t → ∃ a code, m.phase t = .inside a code ∧
    code.run m.memory = (body a).run s

/-- The atomic object as the threads see it. -/
def atomic (m : State α β σ) (s : σ) : Atomic α β σ := ⟨s, fun t => (m.phase t).stage⟩

theorem atomic_setPhase (m : State α β σ) (s : σ) (t : Nat) (p : Phase α β σ) :
    (m.setPhase t p).atomic s = (m.atomic s).setStage t p.stage := by
  simp only [atomic, Atomic.setStage, stage_setPhase]

/-- Inside the body nothing can be seen. -/
theorem atomic_setPhase_same {t : Nat} {p : Phase α β σ} (h : (m.phase t).stage = p.stage) (s : σ) :
    (m.setPhase t p).atomic s = m.atomic s := by
  rw [atomic_setPhase, ← h]
  simp only [atomic, Atomic.setStage]
  congr 1
  exact Function.update_eq_self t _

theorem not_inside {t : Nat} {p : Phase α β σ} (h : m.phase t = p)
    (hp : ∀ a code, p ≠ .inside a code) : ¬ m.Inside t := by
  intro hin
  obtain ⟨a, code, hc⟩ := hin
  exact hp a code (h.symm.trans hc)

theorem start_simulates (s : σ) : Simulates body (.start s : State α β σ) s where
  sole t h := by
    obtain ⟨a, code, hp⟩ := h
    cases hp
  free _ := rfl
  held t h := by cases h

theorem Simulates.sole_ne {s : σ} (h : Simulates body m s) {t u : Nat} (ht : m.holder = some t)
    (hu : u ≠ t) : ¬ m.Inside u := by
  intro hin
  have := h.sole u hin
  rw [ht] at this
  exact hu (Option.some.inj this).symm

/-- A thread outside the body changes its phase to another one outside. -/
theorem Simulates.outside {s : σ} (h : Simulates body m s) {t : Nat} {p : Phase α β σ}
    (ht : ¬ m.Inside t) (hp : ∀ a code, p ≠ .inside a code) : Simulates body (m.setPhase t p) s where
  sole u hu := by
    obtain ⟨a, code, hin⟩ := hu
    by_cases htu : u = t
    · subst htu
      rw [setPhase_self] at hin
      exact absurd hin (hp a code)
    · rw [setPhase_ne m htu] at hin
      exact h.sole u ⟨a, code, hin⟩
  free hn := h.free hn
  held u hu := by
    obtain ⟨a, code, hin, hrun⟩ := h.held u hu
    have htu : u ≠ t := by
      intro he
      subst he
      exact ht ⟨a, code, hin⟩
    exact ⟨a, code, by rw [setPhase_ne m htu, hin], hrun⟩

/-- A call takes effect when its thread leaves the body. -/
theorem Simulates.moves {call : α → σ → Option (β × σ)} (hbody : ∀ a s, (body a).run s = call a s)
    {s : σ} (h : Simulates body m s) (hm : Moves body m c e n) :
    ∃ es s', Atomic.Steps call (m.atomic s) es (n.atomic s') ∧ es.filter Event.visible = e.toList ∧
      Simulates body n s' := by
  cases hm with
  | @invoke t a hp =>
    refine ⟨[.invoke t a], s, ?_, rfl, h.outside (not_inside hp (by simp)) (by simp)⟩
    rw [atomic_setPhase]
    apply Atomic.Steps.cons _ .nil
    exact .invoke (by simp [atomic, hp, Phase.stage])
  | @acquire t a hp hfree =>
    refine ⟨[], s, ?_, rfl, ?_, by simp, ?_⟩
    · have hsame : (m.setPhase t (.inside a (body a))).atomic s = m.atomic s :=
        atomic_setPhase_same (by simp [hp, Phase.stage]) s
      exact hsame ▸ .nil
    · intro u hu
      obtain ⟨b, code, hin⟩ := hu
      by_cases htu : u = t
      · exact congrArg some htu.symm
      · have hin' : m.phase u = .inside b code := by rwa [← setPhase_ne m htu]
        have hh := h.sole u ⟨b, code, hin'⟩
        rw [hfree] at hh
        cases hh
    · intro u hu
      obtain rfl : t = u := Option.some.inj hu
      refine ⟨a, body a, setPhase_self _ _ _, ?_⟩
      rw [← h.free hfree]
      rfl
  | @access t a write next s₁ hp hw =>
    have hholder := h.sole t ⟨a, _, hp⟩
    refine ⟨[], s, ?_, rfl, ?_, ?_, ?_⟩
    · have hsame : (m.setPhase t (.inside a (next m.memory))).atomic s = m.atomic s :=
        atomic_setPhase_same (by simp [hp, Phase.stage]) s
      exact hsame ▸ .nil
    · intro u hu
      obtain ⟨b, code, hin⟩ := hu
      by_cases htu : u = t
      · rw [htu]
        exact hholder
      · exact absurd ⟨b, code, by rwa [← setPhase_ne m htu]⟩ (h.sole_ne hholder htu)
    · intro hnone
      rw [show m.holder = none from hnone] at hholder
      cases hholder
    · intro u hu
      obtain rfl : t = u := Option.some.inj (hholder.symm.trans hu)
      obtain ⟨b, code, hin, hrun⟩ := h.held t hholder
      rw [hp] at hin
      cases hin
      refine ⟨a, next m.memory, setPhase_self _ _ _, ?_⟩
      rw [← hrun]
      simp [Code.run, hw]
  | @release t a b hp =>
    have hholder := h.sole t ⟨a, _, hp⟩
    obtain ⟨a', code, hin, hrun⟩ := h.held t hholder
    rw [hp] at hin
    cases hin
    have hcall : call a s = some (b, m.memory) := by rw [← hbody, ← hrun, Code.run]
    refine ⟨[.commit t a b], m.memory, ?_, rfl, ?_, fun _ => rfl, by simp⟩
    · have hsame : ({ m.setPhase t (.leaving b) with holder := none } : State α β σ).atomic m.memory =
          { (m.atomic s).setStage t (.answered b) with memory := m.memory } :=
        congrArg (Atomic.mk m.memory) (stage_setPhase m t (.leaving b))
      rw [hsame]
      apply Atomic.Steps.cons _ .nil
      exact .commit (by simp [atomic, hp, Phase.stage]) hcall
    · intro u hu
      obtain ⟨b', code, hin⟩ := hu
      by_cases htu : u = t
      · subst htu
        rw [setPhase_self] at hin
        cases hin
      · exact absurd ⟨b', code, by rwa [← setPhase_ne m htu]⟩ (h.sole_ne hholder htu)
  | @respond t b hp =>
    refine ⟨[.respond t b], s, ?_, rfl, h.outside (not_inside hp (by simp)) (by simp)⟩
    rw [atomic_setPhase]
    apply Atomic.Steps.cons _ .nil
    exact .respond (by simp [atomic, hp, Phase.stage])

theorem Simulates.run {call : α → σ → Option (β × σ)} (hbody : ∀ a s, (body a).run s = call a s)
    (cs : List (Action α)) {s : σ} {os : List (Option (Event α β))} (h : Simulates body m s)
    (hr : Sysprog.run (step body) cs m = some (os, n)) :
    ∃ es s', Atomic.Steps call (m.atomic s) es (n.atomic s') ∧
      es.filter Event.visible = os.flatMap Option.toList ∧ Simulates body n s' := by
  induction cs generalizing m s os with
  | nil =>
    obtain ⟨rfl, rfl⟩ : [] = os ∧ m = n := by simpa [Sysprog.run] using hr
    exact ⟨[], s, .nil, rfl, h⟩
  | cons c cs ih =>
    cases hs : step body c m with
    | none => simp [Sysprog.run, hs] at hr
    | some r =>
      have hs' : step body c m = some (r.1, r.2) := hs
      rw [run_cons hs'] at hr
      obtain ⟨⟨os', n'⟩, hn, he⟩ := Option.map_eq_some_iff.mp hr
      obtain ⟨rfl, rfl⟩ := Prod.mk.inj he
      obtain ⟨es, s₁, hsteps, hvis, h₁⟩ := h.moves hbody (moves_of_step hs')
      obtain ⟨fs, s₂, hrest, hvis', h₂⟩ := ih h₁ hn
      refine ⟨es ++ fs, s₂, hsteps.append hrest, ?_, h₂⟩
      rw [List.filter_append, hvis, hvis', List.flatMap_cons]

/-- The thread inside can go on, unless its call is undefined where it takes effect. -/
theorem Simulates.progress {s : σ} (h : Simulates body m s) {t : Nat} (hp : m.phase t ≠ .idle) :
    (∃ c o n, (∀ u a, c ≠ .invoke u a) ∧ step body c m = some (o, n)) ∨
    ∃ u a, (m.atomic s).stage u = .pending a ∧ (body a).run s = none := by
  cases hh : m.holder with
  | some u =>
    obtain ⟨a, code, hin, hrun⟩ := h.held u hh
    cases code with
    | done b => exact .inl ⟨.release u, _, _, by simp, by simp only [step, hin]; rfl⟩
    | access write next =>
      cases hw : write m.memory with
      | none =>
        refine .inr ⟨u, a, by simp [atomic, hin, Phase.stage], ?_⟩
        rw [← hrun]
        simp [Code.run, hw]
      | some s' => exact .inl ⟨.access u, _, _, by simp, by simp only [step, hin, hw]; rfl⟩
  | none =>
    cases hpt : m.phase t with
    | idle => exact absurd hpt hp
    | waiting a => exact .inl ⟨.acquire t, _, _, by simp, by simp only [step, hpt, hh, if_true]; rfl⟩
    | inside a code =>
      have hholder := h.sole t ⟨a, code, hpt⟩
      rw [hh] at hholder
      cases hholder
    | leaving b => exact .inl ⟨.respond t, _, _, by simp, by simp only [step, hpt]; rfl⟩

end State

/-- An object whose methods run under one mutex, however their bodies access the memory: at most one
thread is inside at any time, the calls are those of an atomic object, and as long as a call is under
way some thread can go on, unless a call runs into undefined behaviour. -/
theorem State.linearizable {call : α → σ → Option (β × σ)} {body : α → Code σ β}
    (hbody : ∀ a s, (body a).run s = call a s) (s : σ) (cs : List (State.Action α))
    {os : List (Option (Event α β))} {m : State α β σ}
    (hr : run (State.step body) cs (.start s) = some (os, m)) :
    (∀ t u, m.Inside t → m.Inside u → t = u) ∧
    ∃ es s', Atomic.Steps call (.start s) es (m.atomic s') ∧
      es.filter Event.visible = os.flatMap Option.toList ∧
      ∀ t, m.phase t ≠ .idle →
        (∃ c o n, (∀ u a, c ≠ .invoke u a) ∧ State.step body c m = some (o, n)) ∨
        ∃ u a, (m.phase u).stage = .pending a ∧ call a s' = none := by
  obtain ⟨es, s', hsteps, hvis, h⟩ := (State.start_simulates s).run hbody cs hr
  refine ⟨?_, es, s', hsteps, hvis, ?_⟩
  · intro t u ht hu
    exact Option.some.inj ((h.sole t ht).symm.trans (h.sole u hu))
  · intro t ht
    rcases h.progress ht with hgo | ⟨u, a, hu, hnone⟩
    · exact .inl hgo
    · exact .inr ⟨u, a, hu, by rw [← hbody]; exact hnone⟩

end Sysprog.Monitor
