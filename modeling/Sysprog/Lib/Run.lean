import Mathlib.Tactic

namespace Sysprog

variable {α β σ τ : Type}

theorem rel_imp {R S : σ → τ → Prop} {x : Option σ} {y : Option τ} (h : Option.Rel R x y)
    (hi : ∀ a b, R a b → S a b) : Option.Rel S x y := by
  cases h with
  | none => exact .none
  | some h => exact .some (hi _ _ h)

/-- Two partial computations agree when their first parts do and related results continue alike. -/
theorem rel_bind {σ' τ' : Type} {R : σ → τ → Prop} {S : σ' → τ' → Prop} {x : Option σ}
    {y : Option τ} {f : σ → Option σ'} {g : τ → Option τ'} (h : Option.Rel R x y)
    (hf : ∀ a b, R a b → Option.Rel S (f a) (g b)) : Option.Rel S (x.bind f) (y.bind g) := by
  cases h with
  | none => exact .none
  | some h => exact hf _ _ h

/-- Takes the steps of a list one after another and collects what they return. A step that
yields `none` cannot be taken; the run then has no result. -/
def run (step : α → σ → Option (β × σ)) : List α → σ → Option (List β × σ)
  | [], s => some ([], s)
  | a :: as, s =>
    match step a s with
    | none => none
    | some (b, s') => (run step as s').map fun (bs, t) => (b :: bs, t)

/-- A step that gives out nothing. -/
theorem eq_some_of_map {s : Option σ} {u : Unit} {t : σ}
    (h : (s.map fun t => ((), t)) = some (u, t)) : s = some t := by
  cases s with
  | none => cases h
  | some s =>
    cases h
    rfl

/-- `P` holds before each step the run takes. -/
def AllSteps (step : α → σ → Option (β × σ)) (P : α → σ → Prop) : List α → σ → Prop
  | [], _ => True
  | a :: as, s => P a s ∧
    match step a s with
    | none => True
    | some (_, s') => AllSteps step P as s'

instance decidableAllSteps (step : α → σ → Option (β × σ)) (P : α → σ → Prop)
    [∀ a s, Decidable (P a s)] : ∀ as s, Decidable (AllSteps step P as s)
  | [], _ => inferInstanceAs (Decidable True)
  | a :: as, s =>
    have : Decidable (match step a s with
        | none => True
        | some (_, s') => AllSteps step P as s') :=
      match step a s with
      | none => inferInstanceAs (Decidable True)
      | some (_, s') => decidableAllSteps step P as s'
    inferInstanceAs (Decidable (_ ∧ _))

theorem AllSteps.tail {step : α → σ → Option (β × σ)} {P : α → σ → Prop} {a : α} {as : List α}
    {s s' : σ} {b : β} (h : AllSteps step P (a :: as) s) (hs : step a s = some (b, s')) :
    AllSteps step P as s' := by
  have h2 := h.2
  rwa [hs] at h2

theorem AllSteps.of_append {step : α → σ → Option (β × σ)} {P : α → σ → Prop} {as as' : List α}
    {s : σ} (h : AllSteps step P (as ++ as') s) : AllSteps step P as s := by
  induction as generalizing s with
  | nil => trivial
  | cons a as ih =>
    refine ⟨h.1, ?_⟩
    cases hs : step a s with
    | none => trivial
    | some r => exact ih (h.tail hs)

theorem AllSteps.of_forall {step : α → σ → Option (β × σ)} {P : α → σ → Prop} {as : List α}
    (h : ∀ a ∈ as, ∀ s, P a s) (s : σ) : AllSteps step P as s := by
  induction as generalizing s with
  | nil => trivial
  | cons a as ih =>
    refine ⟨h a (by simp) s, ?_⟩
    cases hs : step a s with
    | none => trivial
    | some r => exact ih (fun b hb => h b (by simp [hb])) r.2

theorem AllSteps.and_mem {step : α → σ → Option (β × σ)} {P : α → σ → Prop} {as : List α}
    {Q : α → Prop} {s : σ} (h : AllSteps step P as s) (hq : ∀ a ∈ as, Q a) :
    AllSteps step (fun a s => Q a ∧ P a s) as s := by
  induction as generalizing s with
  | nil => trivial
  | cons a as ih =>
    refine ⟨⟨hq a (by simp), h.1⟩, ?_⟩
    cases hs : step a s with
    | none => trivial
    | some r => exact ih (h.tail hs) fun b hb => hq b (by simp [hb])

/-- What follows from an invariant that each step keeps. -/
theorem AllSteps.of_invariant {step : α → σ → Option (β × σ)} {P Q : α → σ → Prop} (Inv : σ → Prop)
    (hstep : ∀ a s, Inv s → P a s → Q a s ∧ ∀ b s', step a s = some (b, s') → Inv s')
    {as : List α} {s : σ} (hi : Inv s) (h : AllSteps step P as s) : AllSteps step Q as s := by
  induction as generalizing s with
  | nil => trivial
  | cons a as ih =>
    obtain ⟨hq, keeps⟩ := hstep a s hi h.1
    refine ⟨hq, ?_⟩
    cases hs : step a s with
    | none => trivial
    | some r => exact ih (keeps r.1 r.2 hs) (h.tail hs)

theorem run_cons {step : α → σ → Option (β × σ)} {a : α} {as : List α} {s s' : σ} {b : β}
    (h : step a s = some (b, s')) :
    run step (a :: as) s = (run step as s').map fun (bs, t) => (b :: bs, t) := by
  simp [run, h]

theorem run_cons_outputs {step : α → σ → Option (β × σ)} {a : α} {as : List α} {s s' : σ} {b : β}
    (h : step a s = some (b, s')) :
    (run step (a :: as) s).map Prod.fst = ((run step as s').map Prod.fst).map (b :: ·) := by
  rw [run_cons h]
  cases run step as s' <;> rfl

/-- One more step, at the end. -/
theorem run_push {step : α → σ → Option (β × σ)} {a : α} {as : List α} {s t u : σ} {b : β}
    {bs : List β} (hr : run step as s = some (bs, t)) (h : step a t = some (b, u)) :
    run step (as ++ [a]) s = some (bs ++ [b], u) := by
  induction as generalizing s bs with
  | nil =>
    obtain ⟨rfl, rfl⟩ : bs = [] ∧ s = t := by simpa [run, eq_comm] using hr
    simp [run, h]
  | cons c as ih =>
    cases hc : step c s with
    | none => simp [run, hc] at hr
    | some r =>
      rw [run_cons hc] at hr
      obtain ⟨⟨cs, v⟩, hv, he⟩ := Option.map_eq_some_iff.mp hr
      obtain ⟨rfl, rfl⟩ : r.1 :: cs = bs ∧ v = t := by simpa using he
      rw [List.cons_append, run_cons hc, ih hv]
      rfl

/-- Progress and preservation: where every step meeting `P` can be taken and keeps `Inv`, a run
whose steps all meet `P` has a result, and it satisfies `Inv`. -/
theorem run_total (step : α → σ → Option (β × σ)) (P : α → σ → Prop) (Inv : σ → Prop)
    (hstep : ∀ a s, Inv s → P a s → ∃ b s', step a s = some (b, s') ∧ Inv s')
    (as : List α) (s : σ) (hi : Inv s) (hP : AllSteps step P as s) :
    ∃ bs t, run step as s = some (bs, t) ∧ Inv t := by
  induction as generalizing s with
  | nil => exact ⟨[], s, rfl, hi⟩
  | cons a as ih =>
    obtain ⟨b, s', hs, hi'⟩ := hstep a s hi hP.1
    obtain ⟨bs, t, hr, ht⟩ := ih s' hi' (hP.tail hs)
    exact ⟨b :: bs, t, by simp [run_cons hs, hr], ht⟩

/-- A step function that is total has runs of every length. -/
theorem run_of_total (f : α → σ → β × σ) (as : List α) (s : σ) :
    ∃ bs t, run (fun a s => some (f a s)) as s = some (bs, t) := by
  obtain ⟨bs, t, h, -⟩ := run_total (fun a s => some (f a s)) (fun _ _ => True) (fun _ => True)
    (fun a s _ _ => ⟨_, _, rfl, trivial⟩) as s trivial (AllSteps.of_forall (fun _ _ _ => trivial) s)
  exact ⟨bs, t, h⟩

/-- Preservation alone, for runs that reach a state, with what the steps return on the way. -/
theorem run_outputs (step : α → σ → Option (β × σ)) (P : α → σ → Prop) (Inv : σ → Prop)
    (Out : β → Prop) (hstep : ∀ a s b s', Inv s → P a s → step a s = some (b, s') → Inv s' ∧ Out b)
    (as : List α) (s t : σ) (bs : List β) (hi : Inv s) (hP : AllSteps step P as s)
    (hr : run step as s = some (bs, t)) : Inv t ∧ ∀ b ∈ bs, Out b := by
  induction as generalizing s bs with
  | nil =>
    obtain ⟨rfl, rfl⟩ : bs = [] ∧ s = t := by simpa [run, eq_comm] using hr
    exact ⟨hi, by simp⟩
  | cons a as ih =>
    cases hs : step a s with
    | none => simp [run, hs] at hr
    | some r =>
      rw [run_cons hs] at hr
      obtain ⟨⟨cs, u⟩, hu, he⟩ := Option.map_eq_some_iff.mp hr
      obtain ⟨rfl, rfl⟩ : r.1 :: cs = bs ∧ u = t := by simpa using he
      obtain ⟨hi', hb⟩ := hstep a s r.1 r.2 hi hP.1 hs
      obtain ⟨ht, hcs⟩ := ih r.2 cs hi' (hP.tail hs) hu
      refine ⟨ht, ?_⟩
      intro b hm
      rcases List.mem_cons.mp hm with rfl | hm
      · exact hb
      · exact hcs b hm

theorem run_invariant (step : α → σ → Option (β × σ)) (P : α → σ → Prop) (Inv : σ → Prop)
    (hstep : ∀ a s b s', Inv s → P a s → step a s = some (b, s') → Inv s')
    (as : List α) (s t : σ) (bs : List β) (hi : Inv s) (hP : AllSteps step P as s)
    (hr : run step as s = some (bs, t)) : Inv t :=
  (run_outputs step P Inv (fun _ => True) (fun a s b s' h hp hs => ⟨hstep a s b s' h hp hs, trivial⟩)
    as s t bs hi hP hr).1

/-- Forward simulation: the concrete run exists, returns what the abstract run returns and ends
in a related state. -/
theorem run_refines (step : α → σ → Option (β × σ)) (spec : α → τ → Option (β × τ))
    (P : α → τ → Prop) (R : σ → τ → Prop)
    (hstep : ∀ a s t b t', R s t → P a t → spec a t = some (b, t') →
      ∃ s', step a s = some (b, s') ∧ R s' t')
    (as : List α) (s : σ) (t t' : τ) (bs : List β) (hR : R s t) (hP : AllSteps spec P as t)
    (hr : run spec as t = some (bs, t')) :
    ∃ s', run step as s = some (bs, s') ∧ R s' t' := by
  induction as generalizing s t bs with
  | nil =>
    have h : bs = [] ∧ t = t' := by simpa [run, eq_comm] using hr
    exact ⟨s, by simp [run, h.1], h.2 ▸ hR⟩
  | cons a as ih =>
    cases hs : spec a t with
    | none => simp [run, hs] at hr
    | some r =>
      rw [run_cons hs] at hr
      obtain ⟨⟨cs, u⟩, hu, he⟩ := Option.map_eq_some_iff.mp hr
      obtain ⟨rfl, rfl⟩ : r.1 :: cs = bs ∧ u = t' := by simpa using he
      obtain ⟨s1, h1, hR1⟩ := hstep a s t r.1 r.2 hR hP.1 hs
      obtain ⟨s2, h2, hR2⟩ := ih s1 r.2 cs hR1 (hP.tail hs) hu
      exact ⟨s2, by simp [run_cons h1, h2], hR2⟩

/-- Where related states take the same steps, their runs return the same and end in related states,
or both have no result. -/
theorem run_rel (step : α → σ → Option (β × σ)) (spec : α → τ → Option (β × τ)) (R : σ → τ → Prop)
    (hstep : ∀ a s t, R s t → Option.Rel (fun x y => x.1 = y.1 ∧ R x.2 y.2) (step a s) (spec a t))
    (as : List α) {s : σ} {t : τ} (hR : R s t) :
    Option.Rel (fun x y => x.1 = y.1 ∧ R x.2 y.2) (run step as s) (run spec as t) := by
  induction as generalizing s t with
  | nil => exact .some ⟨rfl, hR⟩
  | cons a as ih =>
    have h := hstep a s t hR
    simp only [run]
    generalize step a s = x at h ⊢
    generalize spec a t = y at h ⊢
    cases h with
    | none => exact .none
    | @some x y h =>
      obtain ⟨b, s'⟩ := x
      obtain ⟨b', t'⟩ := y
      obtain ⟨rfl, hR'⟩ : b = b' ∧ R s' t' := h
      have hrest := ih hR'
      dsimp only
      generalize run step as s' = u at hrest ⊢
      generalize run spec as t' = v at hrest ⊢
      cases hrest with
      | none => exact .none
      | some hrest => exact .some ⟨congrArg (b :: ·) hrest.1, hrest.2⟩

theorem run_same (step : α → σ → Option (β × σ)) (spec : α → τ → Option (β × τ)) (R : σ → τ → Prop)
    (hstep : ∀ a s t, R s t → Option.Rel (fun x y => x.1 = y.1 ∧ R x.2 y.2) (step a s) (spec a t))
    (as : List α) {s : σ} {t : τ} (hR : R s t) :
    (run step as s).map Prod.fst = (run spec as t).map Prod.fst := by
  have h := run_rel step spec R hstep as hR
  generalize run step as s = x at h ⊢
  generalize run spec as t = y at h ⊢
  cases h with
  | none => rfl
  | some h => exact congrArg some h.1

end Sysprog
