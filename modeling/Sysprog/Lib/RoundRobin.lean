import Sysprog.Lib.Machine

namespace Sysprog

variable {σ : Type}

/-- What takes turns: `step` goes on to the next switch, with no result at a fault; `waits` holds
where a routine waits for the flags `done` of all. -/
structure Routine (σ : Type) where
  step : σ → Option σ
  waits : σ → Bool
  done : σ → Bool

/-- The states of the routines and whose turn it is. -/
structure Pool (σ : Type) where
  states : List σ
  cur : Nat

inductive Pool.Result (σ : Type) where
  | fault
  | running (p : Pool σ)
  | returned (states : List σ)

namespace Routine

variable (m : Routine σ)

/-- One turn. A routine that waits returns when all are done, otherwise the next one has the turn. -/
def turn (p : Pool σ) : Pool.Result σ :=
  match p.states[p.cur]? with
  | none => .fault
  | some s =>
    match m.step s with
    | none => .fault
    | some t =>
      let states := p.states.set p.cur t
      if m.waits t && states.all m.done then .returned states
      else .running ⟨states, (p.cur + 1) % states.length⟩

def run : Nat → Pool σ → Pool.Result σ
  | 0, p => .running p
  | n + 1, p =>
    match m.turn p with
    | .running q => run n q
    | r => r

/-- More fuel does not change a result. -/
theorem run_of_le {k n : Nat} {p : Pool σ} (hkn : k ≤ n) (h : ∀ q, m.run k p ≠ .running q) :
    m.run n p = m.run k p := by
  induction k generalizing n p with
  | zero => exact absurd rfl (h p)
  | succ k ih =>
    obtain ⟨n, rfl⟩ : ∃ n', n = n' + 1 := ⟨n - 1, by omega⟩
    cases ht : m.turn p with
    | running q =>
      simp only [run, ht] at h ⊢
      exact ih (by omega) h
    | fault => simp only [run, ht]
    | returned states => simp only [run, ht]

/-- A run has one result, whatever the fuel. -/
theorem run_unique {k n : Nat} {p : Pool σ} (hk : ∀ q, m.run k p ≠ .running q)
    (hn : ∀ q, m.run n p ≠ .running q) : m.run k p = m.run n p := by
  have h1 := m.run_of_le (Nat.le_max_left k n) hk
  have h2 := m.run_of_le (Nat.le_max_right k n) hn
  exact h1.symm.trans h2

/-- The routine is done and only waits for the others. -/
structure Rests (s : σ) : Prop where
  done : m.done s = true
  waits : m.waits s = true
  step : m.step s = some s

/-- Alone, the routine comes to rest in `f` after `n` more steps. -/
inductive Lands : Nat → σ → σ → Prop where
  | rest {f : σ} (h : m.Rests f) : Lands 0 f f
  | step {n : Nat} {s t f : σ} (hd : m.done s = false) (hs : m.step s = some t)
      (h : Lands n t f) : Lands (n + 1) s f

variable {m}

theorem exists_lands (Inv : σ → Prop) (hi : ∀ s t, Inv s → m.step s = some t → Inv t)
    (hd : ∀ s, Inv s → m.done s = true → m.Rests s) {s f : σ} (hr : Reaches m.step s f)
    (hs : Inv s) (hf : m.done f = true) : ∃ n, m.Lands n s f := by
  induction hr using Relation.ReflTransGen.head_induction_on with
  | refl => exact ⟨0, .rest (hd f hs hf)⟩
  | @head s t hst _ ih =>
    cases hds : m.done s with
    | true =>
      obtain rfl : s = t := Option.some.inj ((hd s hs hds).step.symm.trans hst)
      exact ih hs
    | false =>
      obtain ⟨n, hn⟩ := ih (hi s t hs hst)
      exact ⟨n + 1, .step hds hst hn⟩

theorem Lands.done_iff {n : Nat} {s f : σ} (h : m.Lands n s f) : m.done s = true ↔ n = 0 := by
  cases h with
  | rest h => simp [h.done]
  | step hd _ _ => simp [hd]

theorem Lands.eq_of_zero {s f : σ} (h : m.Lands 0 s f) : s = f := by
  cases h
  rfl

theorem Lands.rests {s f : σ} (h : m.Lands 0 s f) : m.Rests s := by
  cases h
  assumption

/-- A routine that lands is never stuck on its way, nor afterwards. -/
theorem Lands.reaches {n : Nat} {s t f : σ} (h : m.Lands n s f) (hr : Reaches m.step s t) :
    ∃ k, m.Lands k t f ∧ m.step t ≠ none := by
  induction hr using Relation.ReflTransGen.head_induction_on generalizing n with
  | refl =>
    refine ⟨n, h, ?_⟩
    cases h with
    | rest h => simp [h.step]
    | step _ hs _ => simp [hs]
  | head hst _ ih =>
    cases h with
    | rest h =>
      obtain rfl := Option.some.inj (h.step.symm.trans hst)
      exact ih (.rest h)
    | step _ hs h =>
      obtain rfl := Option.some.inj (hs.symm.trans hst)
      exact ih h

/-- Each routine of the pool lands in its entry of `fs`, after `n` of its own steps. -/
structure Landing (m : Routine σ) (p : Pool σ) (n : Nat → Nat) (fs : List σ) : Prop where
  length : p.states.length = fs.length
  cur : p.cur < fs.length
  lands : ∀ i s f, p.states[i]? = some s → fs[i]? = some f → m.Lands (n i) s f

section pool

variable {p : Pool σ} {n : Nat → Nat} {fs : List σ}

theorem Landing.entry (h : Landing m p n fs) {i : Nat} (hi : i < fs.length) :
    ∃ s f, p.states[i]? = some s ∧ fs[i]? = some f ∧ m.Lands (n i) s f := by
  have hi' : i < p.states.length := h.length ▸ hi
  have hs := List.getElem?_eq_getElem hi'
  have hf := List.getElem?_eq_getElem hi
  exact ⟨_, _, hs, hf, h.lands i _ _ hs hf⟩

theorem Landing.all_done_iff (h : Landing m p n fs) :
    p.states.all m.done = true ↔ ∀ i < fs.length, n i = 0 := by
  constructor
  · intro ha i hi
    obtain ⟨s, f, hs, -, hl⟩ := h.entry hi
    exact hl.done_iff.mp (List.all_eq_true.mp ha s (List.mem_of_getElem? hs))
  · intro hn
    apply List.all_eq_true.mpr
    intro s hs
    obtain ⟨i, hi⟩ := List.getElem?_of_mem hs
    have hlt : i < fs.length := h.length ▸ (List.getElem?_eq_some_iff.mp hi).1
    obtain ⟨s', f, hs', -, hl⟩ := h.entry hlt
    obtain rfl : s = s' := Option.some.inj (hi.symm.trans hs')
    exact hl.done_iff.mpr (hn i hlt)

theorem Landing.states_eq (h : Landing m p n fs) (hn : ∀ i < fs.length, n i = 0) :
    p.states = fs := by
  apply List.ext_getElem?
  intro i
  by_cases hi : i < fs.length
  · obtain ⟨s, f, hs, hf, hl⟩ := h.entry hi
    rw [hn i hi] at hl
    rw [hs, hf, hl.eq_of_zero]
  · have h1 : p.states[i]? = none := List.getElem?_eq_none (by rw [h.length]; omega)
    have h2 : fs[i]? = none := List.getElem?_eq_none (by omega)
    rw [h1, h2]

theorem set_of_getElem? {l : List σ} {i : Nat} {s : σ} (h : l[i]? = some s) : l.set i s = l := by
  obtain ⟨hi, rfl⟩ := List.getElem?_eq_some_iff.mp h
  exact List.set_getElem_self hi

/-- The turn after a step to `t`. -/
theorem Landing.turn_eq (h : Landing m p n fs) {s t : σ} (hs : p.states[p.cur]? = some s)
    (ht : m.step s = some t) : m.turn p =
      if m.waits t && (p.states.set p.cur t).all m.done then .returned (p.states.set p.cur t)
      else .running ⟨p.states.set p.cur t, (p.cur + 1) % fs.length⟩ := by
  simp only [turn, hs, ht, List.length_set, h.length]

theorem Landing.turn_of_zero (h : Landing m p n fs) (hn : ∀ i < fs.length, n i = 0) :
    m.turn p = .returned fs := by
  obtain ⟨s, f, hs, hf, hl⟩ := h.entry h.cur
  rw [hn _ h.cur] at hl
  have hset := set_of_getElem? hs
  rw [h.turn_eq hs hl.rests.step, hset, hl.rests.waits, h.all_done_iff.mpr hn, h.states_eq hn]
  rfl

/-- The turn of a routine that is done while another one is not. -/
theorem Landing.turn_of_done (h : Landing m p n fs) (hc : n p.cur = 0) {i : Nat}
    (hi : i < fs.length) (hn : n i ≠ 0) :
    m.turn p = .running ⟨p.states, (p.cur + 1) % fs.length⟩ := by
  obtain ⟨s, f, hs, hf, hl⟩ := h.entry h.cur
  rw [hc] at hl
  have hset := set_of_getElem? hs
  have ha : p.states.all m.done = false := by
    apply Bool.eq_false_iff.mpr
    intro ha
    exact hn (h.all_done_iff.mp ha i hi)
  rw [h.turn_eq hs hl.rests.step, hset, ha, Bool.and_false]
  rfl

theorem Landing.set (h : Landing m p n fs) {k : Nat} {t f : σ} (hf : fs[p.cur]? = some f)
    (ht : m.Lands k t f) (c : Nat) (hc : c < fs.length) :
    Landing m ⟨p.states.set p.cur t, c⟩ (Function.update n p.cur k) fs where
  length := by simpa using h.length
  cur := hc
  lands := by
    intro i s g hs hg
    by_cases hi : i = p.cur
    · subst hi
      obtain rfl : t = s := by simpa [List.getElem?_set, h.length, h.cur] using hs
      obtain rfl : f = g := Option.some.inj (hf.symm.trans hg)
      simpa using ht
    · rw [List.getElem?_set_ne (Ne.symm hi)] at hs
      rw [Function.update_of_ne hi]
      exact h.lands i s g hs hg

/-- The turn of a routine that is not done. -/
theorem Landing.turn_of_step (h : Landing m p n fs) {k : Nat} (hk : n p.cur = k + 1) :
    m.turn p = .returned fs ∨
      ∃ q, m.turn p = .running q ∧ Landing m q (Function.update n p.cur k) fs := by
  obtain ⟨s, f, hs, hf, hl⟩ := h.entry h.cur
  rw [hk] at hl
  cases hl with
  | @step _ _ t _ hd hst ht =>
    have hc : (p.cur + 1) % fs.length < fs.length := Nat.mod_lt _ (Nat.zero_lt_of_lt h.cur)
    have hq := h.set hf ht _ hc
    rw [h.turn_eq hs hst]
    by_cases hr : (m.waits t && (p.states.set p.cur t).all m.done) = true
    · have ha := (Bool.and_eq_true_iff.mp hr).2
      rw [if_pos hr]
      exact .inl (congrArg Pool.Result.returned (hq.states_eq (hq.all_done_iff.mp ha)))
    · rw [if_neg hr]
      exact .inr ⟨_, rfl, hq⟩

theorem run_of_turn {q : Pool σ} {r : Pool.Result σ} (h : m.turn p = .running q)
    (hr : ∃ k, m.run k q = r) : ∃ k, m.run k p = r := by
  obtain ⟨k, hk⟩ := hr
  exact ⟨k + 1, by simp only [run, h, hk]⟩

/-- The turns pass on from routines that are done until they come to one that is not. -/
theorem Landing.pass {d : Nat} (h : Landing m p n fs)
    (hd : n ((p.cur + d) % fs.length) ≠ 0)
    (hgo : ∀ q, Landing m q n fs → n q.cur ≠ 0 → ∃ k, m.run k q = .returned fs) :
    ∃ k, m.run k p = .returned fs := by
  have hl : 0 < fs.length := Nat.zero_lt_of_lt h.cur
  induction d generalizing p with
  | zero =>
    rw [Nat.add_zero, Nat.mod_eq_of_lt h.cur] at hd
    exact hgo p h hd
  | succ d ih =>
    by_cases hc : n p.cur = 0
    · apply run_of_turn (h.turn_of_done hc (Nat.mod_lt _ hl) hd)
      have hq : Landing m ⟨p.states, (p.cur + 1) % fs.length⟩ n fs :=
        ⟨h.length, Nat.mod_lt _ hl, h.lands⟩
      apply ih hq
      have he : ((p.cur + 1) % fs.length + d) % fs.length = (p.cur + (d + 1)) % fs.length := by
        rw [Nat.mod_add_mod, Nat.add_assoc, Nat.add_comm 1 d]
      rwa [he]
    · exact hgo p h hc

/-- Where each routine alone comes to an end, the pool returns with these ends. -/
theorem Landing.returns (h : Landing m p n fs) : ∃ k, m.run k p = .returned fs := by
  -- on the steps that the routines have left altogether
  induction hs : ∑ i ∈ Finset.range fs.length, n i using Nat.strong_induction_on
    generalizing p n with
  | _ total ih =>
    by_cases hz : ∀ i < fs.length, n i = 0
    · exact ⟨1, by simp only [run, h.turn_of_zero hz]⟩
    · obtain ⟨i, hi, hn⟩ : ∃ i, i < fs.length ∧ n i ≠ 0 := by simpa using hz
      have hd : (p.cur + (fs.length - p.cur + i)) % fs.length = i := by
        have hc := h.cur
        rw [show p.cur + (fs.length - p.cur + i) = i + fs.length by omega, Nat.add_mod_right,
          Nat.mod_eq_of_lt hi]
      apply h.pass (by rwa [hd])
      intro q hq hc
      obtain ⟨k, hk⟩ := Nat.exists_eq_succ_of_ne_zero hc
      rcases hq.turn_of_step hk with hr | ⟨q', ht, hq'⟩
      · exact ⟨1, by simp only [run, hr]⟩
      · refine run_of_turn ht (ih _ ?_ hq' rfl)
        rw [← hs]
        refine Finset.sum_lt_sum (fun j _ => ?_) ⟨q.cur, Finset.mem_range.mpr hq.cur, ?_⟩
        · by_cases hj : j = q.cur
          · subst hj
            simp [hk]
          · rw [Function.update_of_ne hj]
        · simp [hk]

/-- Round robin: routines that each come to rest do so together. -/
theorem exists_returned {ss : List σ} (hne : ss ≠ [])
    (h : List.Forall₂ (fun s f => ∃ k, m.Lands k s f) ss fs) :
    ∃ k, m.run k ⟨ss, 0⟩ = .returned fs := by
  have hl : ∀ i : Nat, ∃ k, ∀ s f, ss[i]? = some s → fs[i]? = some f → m.Lands k s f := by
    intro i
    by_cases hi : i < ss.length
    · have hi' : i < fs.length := h.length_eq ▸ hi
      obtain ⟨k, hk⟩ := (List.forall₂_iff_get.mp h).2 i hi hi'
      refine ⟨k, fun s f hs hf => ?_⟩
      obtain rfl : ss[i] = s := by simpa [hi] using hs
      obtain rfl : fs[i] = f := by simpa [hi'] using hf
      exact hk
    · exact ⟨0, fun s f hs _ => absurd (List.getElem?_eq_some_iff.mp hs).1 hi⟩
  choose n hn using hl
  have hp : Landing m ⟨ss, 0⟩ n fs :=
    ⟨h.length_eq, h.length_eq ▸ List.length_pos_of_ne_nil hne, fun i => hn i⟩
  exact hp.returns

end pool

end Routine

end Sysprog
