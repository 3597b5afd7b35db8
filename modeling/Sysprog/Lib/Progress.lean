import Sysprog.Lib.Run

namespace Sysprog

variable {α β γ δ ρ σ τ : Type}

/-- Where every state that is not good yet has an allowed step that keeps the invariant and lowers a
number, a run of allowed steps leads to a good one. -/
theorem exists_run (step : α → σ → Option (β × σ)) (Allowed : α → Prop) (Inv Good : σ → Prop)
    (μ : σ → Nat)
    (hstep : ∀ s, Inv s → ¬ Good s →
      ∃ a b t, Allowed a ∧ step a s = some (b, t) ∧ Inv t ∧ μ t < μ s)
    (s : σ) (hs : Inv s) :
    ∃ as bs t, (∀ a ∈ as, Allowed a) ∧ run step as s = some (bs, t) ∧ Inv t ∧ Good t := by
  induction hn : μ s using Nat.strong_induction_on generalizing s with
  | _ n ih =>
    by_cases hg : Good s
    · exact ⟨[], [], s, by simp, rfl, hs, hg⟩
    · obtain ⟨a, b, u, ha, hu, hi, hlt⟩ := hstep s hs hg
      obtain ⟨as, bs, t, has, hr, ht, hgood⟩ := ih (μ u) (hn ▸ hlt) u hi rfl
      refine ⟨a :: as, b :: bs, t, ?_, ?_, ht, hgood⟩
      · simpa [ha] using has
      · rw [run_cons hu, hr]
        rfl

/-- The states of a schedule that never ends. Who cannot go on when it is its turn is passed over. -/
def follow (step : α → σ → Option (β × σ)) (schedule : Nat → α) (s : σ) : Nat → σ
  | 0 => s
  | n + 1 =>
    let t := follow step schedule s n
    match step (schedule n) t with
    | some (_, u) => u
    | none => t

theorem follow_inv (step : α → σ → Option (β × σ)) (Inv : σ → Prop)
    (hstep : ∀ a s b t, Inv s → step a s = some (b, t) → Inv t) (schedule : Nat → α) (s : σ)
    (hs : Inv s) (n : Nat) : Inv (follow step schedule s n) := by
  induction n with
  | zero => exact hs
  | succ n ih =>
    simp only [follow]
    cases h : step (schedule n) (follow step schedule s n) with
    | none => exact ih
    | some r => exact hstep _ _ _ _ ih h

/-- Where each step is one of a coarser system or none of its business, what a schedule comes to is
reached by a run of the coarser one. -/
theorem run_of_follow {step : α → σ → Option (β × σ)} {spec : γ → τ → Option (δ × τ)} (f : σ → τ)
    (hstep : ∀ a s b t, step a s = some (b, t) → f t = f s ∨ ∃ c d, spec c (f s) = some (d, f t))
    (schedule : Nat → α) (s : σ) (n : Nat) :
    ∃ cs ds, run spec cs (f s) = some (ds, f (follow step schedule s n)) := by
  induction n with
  | zero => exact ⟨[], [], rfl⟩
  | succ n ih =>
    obtain ⟨cs, ds, hr⟩ := ih
    simp only [follow]
    cases h : step (schedule n) (follow step schedule s n) with
    | none => exact ⟨cs, ds, hr⟩
    | some r =>
      rcases hstep _ _ _ _ h with same | ⟨c, d, hc⟩
      · refine ⟨cs, ds, ?_⟩
        rw [hr, ← same]
      · exact ⟨cs ++ [c], ds ++ [d], run_push hr hc⟩

/-- A schedule goes on from where it is. -/
theorem follow_add (step : α → σ → Option (β × σ)) (schedule : Nat → α) (s : σ) (m n : Nat) :
    follow step schedule s (m + n) =
      follow step (fun k => schedule (m + k)) (follow step schedule s m) n := by
  induction n with
  | zero => rfl
  | succ n ih => rw [← Nat.add_assoc, follow, follow, ih]

/-- Every party has its turn again and again. -/
def Fair (party : α → ρ) (Party : ρ → Prop) (schedule : Nat → α) : Prop :=
  ∀ p, Party p → ∀ n, ∃ m, n ≤ m ∧ party (schedule m) = p

theorem Fair.later {party : α → ρ} {Party : ρ → Prop} {schedule : Nat → α}
    (fair : Fair party Party schedule) (m : Nat) : Fair party Party fun k => schedule (m + k) := by
  intro p hp n
  obtain ⟨k, le, turn⟩ := fair p hp (m + n)
  refine ⟨k - m, by omega, ?_⟩
  show party (schedule (m + (k - m))) = p
  rwa [Nat.add_sub_cancel' (by omega)]

/-- A step leads nearer to a goal, or leaves the distance as it is, and who brings it nearer. -/
def Nearer [LT γ] (μ : σ → γ) (helpful : σ → ρ) (s t : σ) : Prop :=
  μ t < μ s ∨ μ t = μ s ∧ helpful t = helpful s

section Reaches

variable [Preorder γ] [WellFoundedLT γ] (step : α → σ → Option (β × σ)) {party : α → ρ}
  {Party : ρ → Prop} (Inv Good : σ → Prop) (μ : σ → γ)

/-- In each state that is not good yet there is a party whose next step lowers `μ`, whichever it is.
The steps of the others lower `μ` as well, or leave `μ` and that party as they are. Then a fair
schedule leads to a good state. -/
theorem fair_reaches_helpful (helpful : σ → ρ)
    (hstep : ∀ a s b t, Inv s → step a s = some (b, t) → Inv t)
    (hkeep : ∀ a s b t, Inv s → ¬ Good s → step a s = some (b, t) → Nearer μ helpful s t)
    (hmove : ∀ s, Inv s → ¬ Good s → Party (helpful s) ∧
      ∀ a, party a = helpful s → ∃ b t, step a s = some (b, t) ∧ μ t < μ s)
    (schedule : Nat → α) (fair : Fair party Party schedule) (s : σ) (hs : Inv s) :
    ∃ n, Inv (follow step schedule s n) ∧ Good (follow step schedule s n) := by
  have inv : ∀ n, Inv (follow step schedule s n) := follow_inv step Inv hstep schedule s hs
  suffices reach : ∀ n, ∃ m, Good (follow step schedule s m) by
    obtain ⟨m, good⟩ := reach 0
    exact ⟨m, inv m, good⟩
  intro n
  induction hn : μ (follow step schedule s n) using WellFoundedLT.induction generalizing n with
  | _ x ih =>
    by_contra never
    have bad : ∀ m, ¬ Good (follow step schedule s m) := fun m good => never ⟨m, good⟩
    have above : ∀ m, ¬ μ (follow step schedule s m) < x := by
      intro m lower
      obtain ⟨k, good⟩ := ih _ lower m rfl
      exact bad k good
    -- until the turn of the helpful party, it stays the helpful one
    have wait : ∀ k, μ (follow step schedule s (n + k)) = x ∧
        helpful (follow step schedule s (n + k)) = helpful (follow step schedule s n) := by
      intro k
      induction k with
      | zero => exact ⟨hn, rfl⟩
      | succ k ihk =>
        have next : follow step schedule s (n + (k + 1)) =
            match step (schedule (n + k)) (follow step schedule s (n + k)) with
            | some (_, u) => u
            | none => follow step schedule s (n + k) := rfl
        cases h : step (schedule (n + k)) (follow step schedule s (n + k)) with
        | none =>
          rw [next, h]
          exact ihk
        | some r =>
          rcases hkeep _ _ _ _ (inv _) (bad _) h with lower | ⟨same, helps⟩
          · rw [ihk.1] at lower
            have lower' := above (n + (k + 1))
            rw [next, h] at lower'
            exact absurd lower lower'
          · rw [next, h]
            exact ⟨same.trans ihk.1, helps.trans ihk.2⟩
    obtain ⟨hp, -⟩ := hmove _ (inv n) (bad n)
    obtain ⟨m, le, turn⟩ := fair _ hp n
    obtain ⟨k, rfl⟩ := Nat.exists_eq_add_of_le le
    obtain ⟨-, moves⟩ := hmove _ (inv (n + k)) (bad (n + k))
    obtain ⟨b, t, ht, lower⟩ := moves _ (turn.trans (wait k).2.symm)
    apply above (n + k + 1)
    simp only [follow, ht]
    rwa [(wait k).1] at lower

/-- Where every step that changes the state lowers a number, and some party can change each state
that is not good yet, a fair schedule leads to a good one. -/
theorem fair_reaches {Party : α → Prop}
    (hstep : ∀ a s b t, Inv s → step a s = some (b, t) → Inv t ∧ (t = s ∨ μ t < μ s))
    (hmove : ∀ s, Inv s → ¬ Good s → ∃ a b t, Party a ∧ step a s = some (b, t) ∧ t ≠ s)
    (schedule : Nat → α) (fair : Fair id Party schedule) (s : σ) (hs : Inv s) :
    ∃ n, Inv (follow step schedule s n) ∧ Good (follow step schedule s n) := by
  classical
  let helpful (s : σ) : α :=
    if h : Inv s ∧ ¬ Good s then (hmove s h.1 h.2).choose else schedule 0
  refine fair_reaches_helpful step Inv Good μ helpful (fun a s b t hs ht => (hstep a s b t hs ht).1)
    ?_ ?_ schedule fair s hs
  · intro a s b t hs _ ht
    rcases (hstep a s b t hs ht).2 with rfl | lower
    · exact .inr ⟨rfl, rfl⟩
    · exact .inl lower
  · intro s hs bad
    obtain ⟨b, t, hp, ht, ne⟩ := (hmove s hs bad).choose_spec
    have helps : helpful s = (hmove s hs bad).choose := dif_pos ⟨hs, bad⟩
    rw [helps]
    refine ⟨hp, ?_⟩
    intro a ha
    have same : a = (hmove s hs bad).choose := ha
    rw [same]
    exact ⟨b, t, ht, ((hstep _ _ _ _ hs ht).2).resolve_left ne⟩

end Reaches

end Sysprog
