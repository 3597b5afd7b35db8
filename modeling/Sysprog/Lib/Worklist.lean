import Sysprog.Lib.Machine

namespace Sysprog

variable {α : Type}

/-- A search: the nodes still to be looked at, and those that have been, in their order. -/
structure Worklist (α : Type) where
  queue : List α
  seen : List α

/-- `b` is one of `starts`, or can be reached from one of them. -/
def ReachedFrom (next : α → List α) (starts : List α) (b : α) : Prop :=
  ∃ a ∈ starts, Relation.ReflTransGen (fun x y => y ∈ next x) a b

namespace Worklist

variable {next : α → List α} {starts : List α} {w v : Worklist α}

/-- In the queue or behind it. -/
def Met (w : Worklist α) (a : α) : Prop := a ∈ w.seen ∨ a ∈ w.queue

/-- What one step does. -/
inductive Steps (next : α → List α) : Worklist α → Worklist α → Prop
  | skip {a : α} {queue seen : List α} (h : a ∈ seen) : Steps next ⟨a :: queue, seen⟩ ⟨queue, seen⟩
  | visit {a : α} {queue seen : List α} (h : a ∉ seen) :
    Steps next ⟨a :: queue, seen⟩ ⟨queue ++ next a, seen ++ [a]⟩

/-- A node that has been met stays met. -/
theorem Steps.met (h : Steps next w v) {a : α} (ha : w.Met a) : v.Met a := by
  cases h with
  | skip hs =>
    rcases ha with ha | ha
    · exact .inl ha
    · rcases List.mem_cons.mp ha with rfl | ha
      · exact .inl hs
      · exact .inr ha
  | visit hs =>
    rcases ha with ha | ha
    · exact .inl (List.mem_append_left _ ha)
    · rcases List.mem_cons.mp ha with rfl | ha
      · exact .inl (by simp)
      · exact .inr (List.mem_append_left _ ha)

/-- What holds all through a search: nothing is looked at twice, all that is met can be reached,
and no successor of what has been looked at is missed. -/
structure Search (next : α → List α) (starts : List α) (w : Worklist α) : Prop where
  nodup : w.seen.Nodup
  reached : ∀ a, w.Met a → ReachedFrom next starts a
  started : ∀ a ∈ starts, w.Met a
  closed : ∀ a ∈ w.seen, ∀ b ∈ next a, w.Met b

theorem search_start (next : α → List α) (starts : List α) : Search next starts ⟨starts, []⟩ where
  nodup := .nil
  reached := by
    intro a ha
    have hq : a ∈ starts := by simpa [Met] using ha
    exact ⟨a, hq, .refl⟩
  started := fun a ha => .inr ha
  closed := by simp

theorem Search.step (h : Search next starts w) (hs : Steps next w v) : Search next starts v where
  nodup := by
    cases hs with
    | skip _ => exact h.nodup
    | visit ha =>
      apply List.Nodup.append h.nodup (List.nodup_singleton _)
      exact List.disjoint_singleton.mpr ha
  reached := by
    intro b hb
    cases hs with
    | skip _ => exact h.reached b (hb.imp id (List.mem_cons_of_mem _))
    | @visit a queue seen _ =>
      have head : ReachedFrom next starts a := h.reached a (.inr List.mem_cons_self)
      simp only [Met, List.mem_append, List.mem_singleton] at hb
      rcases hb with (hb | rfl) | hb | hb
      · exact h.reached b (.inl hb)
      · exact head
      · exact h.reached b (.inr (List.mem_cons_of_mem _ hb))
      · obtain ⟨s, hs, path⟩ := head
        exact ⟨s, hs, path.tail hb⟩
  started := fun a ha => hs.met (h.started a ha)
  closed := by
    intro a ha b hb
    have old : a ∈ w.seen → v.Met b := fun ha => hs.met (h.closed a ha b hb)
    cases hs with
    | skip _ => exact old ha
    | visit _ =>
      rcases List.mem_append.mp ha with ha | ha
      · exact old ha
      · rw [List.mem_singleton.mp ha] at hb
        exact .inr (List.mem_append_right _ hb)

/-- Where the queue is empty, what has been looked at is what can be reached. -/
theorem Search.complete (h : Search next starts w) (hq : w.queue = []) (b : α) :
    b ∈ w.seen ↔ ReachedFrom next starts b := by
  have hmet : ∀ a, w.Met a → a ∈ w.seen := by
    intro a ha
    simpa [Met, hq] using ha
  constructor
  · intro hb
    exact h.reached b (.inl hb)
  · rintro ⟨a, ha, path⟩
    induction path with
    | refl => exact hmet a (h.started a ha)
    | tail _ hbc ih => exact hmet _ (h.closed _ ih _ hbc)

variable [DecidableEq α]

/-- Takes the first node of the queue; the first time, its successors go to the end. -/
def step (next : α → List α) (w : Worklist α) : Option (Worklist α) :=
  match w.queue with
  | [] => none
  | a :: queue =>
    if a ∈ w.seen then some ⟨queue, w.seen⟩ else some ⟨queue ++ next a, w.seen ++ [a]⟩

theorem step_cases (h : step next w = some v) : Steps next w v := by
  obtain ⟨queue, seen⟩ := w
  cases queue with
  | nil => cases h
  | cons a queue =>
    by_cases ha : a ∈ seen
    · simp only [step, if_pos ha, Option.some.injEq] at h
      rw [← h]
      exact .skip ha
    · simp only [step, if_neg ha, Option.some.injEq] at h
      rw [← h]
      exact .visit ha

theorem step_eq_none : step next w = none ↔ w.queue = [] := by
  obtain ⟨queue, seen⟩ := w
  cases queue with
  | nil => simp [step]
  | cons a queue =>
    simp only [step, reduceCtorEq, iff_false]
    split_ifs <;> simp

/-- How many steps are left, where all that can be reached is in `U`: the queue, and all that the
nodes not yet looked at will add to it. -/
def work (next : α → List α) (U : Finset α) (w : Worklist α) : Nat :=
  w.queue.length + ∑ a ∈ U with a ∉ w.seen, (next a).length

theorem work_visit (next : α → List α) {U : Finset α} {a : α} (queue : List α) {seen : List α}
    (hU : a ∈ U) (ha : a ∉ seen) :
    work next U ⟨queue ++ next a, seen ++ [a]⟩ + 1 = work next U ⟨a :: queue, seen⟩ := by
  have split : (U.filter fun b => b ∉ seen) = insert a (U.filter fun b => b ∉ seen ++ [a]) := by
    ext b
    by_cases hb : b = a
    · simp [hb, hU, ha]
    · simp [hb]
  have fresh : a ∉ U.filter fun b => b ∉ seen ++ [a] := by simp
  simp only [work, split, Finset.sum_insert fresh, List.length_append, List.length_cons]
  omega

theorem Search.work_lt {U : Finset α} (hU : ∀ a, ReachedFrom next starts a → a ∈ U)
    (h : Search next starts w) (hs : Steps next w v) : v.work next U < w.work next U := by
  cases hs with
  | skip _ =>
    simp only [work, List.length_cons]
    omega
  | @visit a queue seen ha =>
    have head : a ∈ U := hU a (h.reached a (.inr List.mem_cons_self))
    rw [← work_visit next queue head ha]
    exact Nat.lt_succ_self _

/-- Where finitely many nodes can be reached, a search ends, and has looked at each of them once. -/
theorem search_ends (next : α → List α) (starts : List α) (U : Finset α)
    (hU : ∀ a, ReachedFrom next starts a → a ∈ U) :
    ∃ w, Reaches (step next) ⟨starts, []⟩ w ∧ step next w = none ∧ w.seen.Nodup ∧
      ∀ a, a ∈ w.seen ↔ ReachedFrom next starts a := by
  have keeps : ∀ a b, Search next starts a → step next a = some b →
      Search next starts b ∧ b.work next U < a.work next U := by
    intro a b ha hab
    have hs := step_cases hab
    exact ⟨ha.step hs, ha.work_lt hU hs⟩
  obtain ⟨w, run, search, halts⟩ :=
    exists_halt (step next) _ (work next U) keeps _ (search_start next starts)
  exact ⟨w, run, halts, search.nodup, search.complete (step_eq_none.mp halts)⟩

end Worklist

end Sysprog
