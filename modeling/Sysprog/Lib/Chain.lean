import Mathlib.Tactic
import Mathlib.Logic.Function.Basic

namespace Sysprog

variable {α : Type}

/-- The links from `a` lead through `bs` and end there. -/
def Chain (link : α → Option α) : α → List α → Prop
  | a, [] => link a = none
  | a, b :: bs => link a = some b ∧ Chain link b bs

variable {link link' : α → Option α} {a b : α} {bs cs rest : List α}

theorem Chain.congr (h : Chain link a bs) (same : ∀ c ∈ a :: bs, link' c = link c) :
    Chain link' a bs := by
  induction bs generalizing a with
  | nil => exact (same a List.mem_cons_self).trans h
  | cons b bs ih =>
    refine ⟨(same a List.mem_cons_self).trans h.1, ih h.2 ?_⟩
    intro c hc
    exact same c (List.mem_cons_of_mem _ hc)

/-- A chain is determined by where it starts. -/
theorem Chain.unique (h : Chain link a bs) (h' : Chain link a cs) : bs = cs := by
  induction bs generalizing a cs with
  | nil =>
    cases cs with
    | nil => rfl
    | cons c cs => exact absurd (h.symm.trans h'.1) (by simp)
  | cons b bs ih =>
    cases cs with
    | nil => exact absurd (h.1.symm.trans h') (by simp)
    | cons c cs =>
      obtain rfl : b = c := Option.some.inj (h.1.symm.trans h'.1)
      rw [ih h.2 h'.2]

/-- The link behind the first part of a chain. -/
theorem Chain.link_last (h : Chain link a (bs ++ rest)) : link (bs.getLastD a) = rest.head? := by
  induction bs generalizing a with
  | nil =>
    cases rest with
    | nil => exact h
    | cons b rest => exact h.1
  | cons b bs ih =>
    rw [List.getLastD_cons]
    exact ih h.2

theorem getLastD_mem (a : α) (bs : List α) : bs.getLastD a ∈ a :: bs := by
  induction bs generalizing a with
  | nil => exact List.mem_cons_self
  | cons b bs ih =>
    rw [List.getLastD_cons]
    exact List.mem_cons_of_mem _ (ih b)

/-- The node behind the first part of a chain is taken out by one change of a link. -/
theorem Chain.unlink [DecidableEq α] (h : Chain link a (bs ++ b :: rest))
    (nodup : (a :: (bs ++ b :: rest)).Nodup) :
    Chain (Function.update link (bs.getLastD a) (link b)) a (bs ++ rest) := by
  induction bs generalizing a with
  | nil =>
    have tail : ∀ c ∈ rest, c ≠ a := by
      rintro c hc rfl
      exact (List.nodup_cons.mp nodup).1 (by simp [hc])
    have behind := h.2
    have start : Function.update link a (link b) a = link b := Function.update_self a _ link
    cases rest with
    | nil => exact start.trans behind
    | cons c rest =>
      refine ⟨start.trans behind.1, ?_⟩
      apply behind.2.congr
      intro d hd
      exact Function.update_of_ne (tail d hd) _ _
  | cons c bs ih =>
    have later : a ≠ (c :: bs).getLastD a := by
      intro eq
      rw [List.getLastD_cons] at eq
      apply (List.nodup_cons.mp nodup).1
      have := getLastD_mem c bs
      rw [← eq] at this
      rcases List.mem_cons.mp this with rfl | hm
      · simp
      · simp [hm]
    refine ⟨(Function.update_of_ne later _ _).trans h.1, ?_⟩
    rw [List.getLastD_cons]
    exact ih h.2 (List.nodup_cons.mp nodup).2

end Sysprog
