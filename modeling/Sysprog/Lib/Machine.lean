import Mathlib.Logic.Relation
import Mathlib.Tactic

namespace Sysprog

variable {σ : Type}

/-- `t` is reached from `s` by the steps of a machine that halts where there is no step. -/
def Reaches (step : σ → Option σ) : σ → σ → Prop :=
  Relation.ReflTransGen fun s t => step s = some t

theorem Reaches.step {step : σ → Option σ} {s t u : σ} (h : step s = some t)
    (h' : Reaches step t u) : Reaches step s u :=
  Relation.ReflTransGen.head h h'

theorem Reaches.invariant {step : σ → Option σ} {s t : σ} (h : Reaches step s t) (Inv : σ → Prop)
    (hstep : ∀ a b, Inv a → step a = some b → Inv b) (hs : Inv s) : Inv t := by
  induction h with
  | refl => exact hs
  | tail _ hab ih => exact hstep _ _ ih hab

/-- A machine halts in one state at most. -/
theorem Reaches.halt_unique {step : σ → Option σ} {s t u : σ} (ht : Reaches step s t)
    (hu : Reaches step s u) (hnt : step t = none) (hnu : step u = none) : t = u := by
  have hstop : ∀ {a b : σ}, Reaches step a b → step a = none → a = b := by
    intro a b hab ha
    obtain rfl | ⟨c, hac, -⟩ := Relation.ReflTransGen.cases_head hab
    · rfl
    · rw [ha] at hac
      cases hac
  have hdet : Relator.RightUnique fun a b : σ => step a = some b :=
    fun a b c hb hc => Option.some.inj (hb.symm.trans hc)
  obtain htu | hut := Relation.ReflTransGen.total_of_right_unique hdet ht hu
  · exact hstop htu hnt
  · exact (hstop hut hnu).symm

/-- A machine halts where, as long as the invariant holds, each step lowers a number. -/
theorem exists_halt (step : σ → Option σ) (Inv : σ → Prop) (μ : σ → Nat)
    (hstep : ∀ a b, Inv a → step a = some b → Inv b ∧ μ b < μ a) (s : σ) (hs : Inv s) :
    ∃ t, Reaches step s t ∧ Inv t ∧ step t = none := by
  induction hn : μ s using Nat.strong_induction_on generalizing s with
  | _ n ih =>
    cases he : step s with
    | none => exact ⟨s, .refl, hs, he⟩
    | some b =>
      obtain ⟨hb, hlt⟩ := hstep s b hs he
      obtain ⟨t, ht, hi, hn⟩ := ih (μ b) (hn ▸ hlt) b hb rfl
      exact ⟨t, ht.step he, hi, hn⟩

/-- `p` holds of every state of a run that halts after fewer than `n` steps. -/
def everywhere (step : σ → Option σ) (p : σ → Bool) : Nat → σ → Bool
  | 0, _ => false
  | n + 1, s => p s &&
    match step s with
    | none => true
    | some t => everywhere step p n t

theorem of_everywhere {step : σ → Option σ} {p : σ → Bool} {n : Nat} {s t : σ}
    (h : everywhere step p n s = true) (hr : Reaches step s t) : p t = true := by
  induction hr using Relation.ReflTransGen.head_induction_on generalizing n with
  | refl =>
    cases n with
    | zero => simp [everywhere] at h
    | succ n => exact (Bool.and_eq_true_iff.mp h).1
  | head hab _ ih =>
    cases n with
    | zero => simp [everywhere] at h
    | succ n =>
      have h2 := (Bool.and_eq_true_iff.mp h).2
      rw [hab] at h2
      exact ih h2

end Sysprog
