import Mathlib.Data.List.Perm.Basic
import Mathlib.Algebra.BigOperators.Group.List.Basic
import Mathlib.Tactic

namespace Sysprog

variable {α : Type}

theorem countP_cons_add (x : α) (xs : List α) (p : α → Bool) :
    (x :: xs).countP p = xs.countP p + (p x).toNat := by
  rw [List.countP_cons]
  cases p x <;> rfl

theorem countP_push (xs : List α) (y : α) (p : α → Bool) :
    (xs ++ [y]).countP p = xs.countP p + (p y).toNat := by
  rw [(List.perm_append_singleton y xs).countP_eq, countP_cons_add]

/-- One of a list and the others, also when it changes. -/
theorem perm_set {xs : List α} {i : Nat} {x : α} (h : xs[i]? = some x) :
    ∃ others, xs.Perm (x :: others) ∧ ∀ y, (xs.set i y).Perm (y :: others) := by
  obtain ⟨hi, rfl⟩ := List.getElem?_eq_some_iff.mp h
  exact ⟨xs.eraseIdx i, (List.getElem_cons_eraseIdx_perm hi).symm, List.set_perm_cons_eraseIdx hi⟩

section Change

variable {xs : List α} {i j : Nat} {x y : α} {p : α → Bool}

/-- How many of a list satisfy `p` when one of them changes: what leaves and what comes. -/
theorem countP_set_add (h : xs[i]? = some x) (y : α) (p : α → Bool) :
    (xs.set i y).countP p + (p x).toNat = xs.countP p + (p y).toNat := by
  obtain ⟨others, hx, hy⟩ := perm_set h
  rw [hx.countP_eq, (hy y).countP_eq, countP_cons_add, countP_cons_add]
  omega

/-- The same for a sum over the list. -/
theorem sum_set_add (h : xs[i]? = some x) (y : α) (f : α → Nat) :
    ((xs.set i y).map f).sum + f x = (xs.map f).sum + f y := by
  obtain ⟨others, hx, hy⟩ := perm_set h
  rw [(hx.map f).sum_eq, ((hy y).map f).sum_eq, List.map_cons, List.map_cons, List.sum_cons,
    List.sum_cons]
  omega

theorem countP_set_eq (h : xs[i]? = some x) (y : α) (p : α → Bool) (hp : p y = p x) :
    (xs.set i y).countP p = xs.countP p := by
  have hset := countP_set_add h y p
  rw [hp] at hset
  exact Nat.add_right_cancel hset

theorem countP_set_pos (h : xs[i]? = some x) (hp : p y = true) : 0 < (xs.set i y).countP p := by
  obtain ⟨others, -, hy⟩ := perm_set h
  exact List.countP_pos_iff.mpr ⟨y, (hy y).mem_iff.mpr List.mem_cons_self, hp⟩

/-- One that is there is counted. -/
theorem countP_pos_of_getElem? (h : xs[i]? = some x) (hp : p x = true) : 0 < xs.countP p :=
  List.countP_pos_iff.mpr ⟨x, List.mem_of_getElem? h, hp⟩

/-- One that is counted is there. -/
theorem exists_of_countP_pos (h : 0 < xs.countP p) : ∃ (i : Nat) (x : α), xs[i]? = some x ∧ p x = true := by
  obtain ⟨x, hm, hp⟩ := List.countP_pos_iff.mp h
  obtain ⟨i, hi⟩ := List.mem_iff_getElem?.mp hm
  exact ⟨i, x, hi, hp⟩

/-- The one that changed and the others. -/
theorem getElem?_set_cases (h : (xs.set i y)[j]? = some x) :
    j = i ∧ x = y ∨ j ≠ i ∧ xs[j]? = some x := by
  by_cases hj : j = i
  · subst hj
    have hlt : j < xs.length := by
      have hlt' := (List.getElem?_eq_some_iff.mp h).1
      rwa [List.length_set] at hlt'
    rw [List.getElem?_set_self hlt] at h
    exact .inl ⟨rfl, (Option.some.inj h).symm⟩
  · rw [List.getElem?_set_ne (Ne.symm hj)] at h
    exact .inr ⟨hj, h⟩

/-- One of a longer list that is not the new one. -/
theorem getElem?_push_ne (h : (xs ++ [y])[i]? = some x) (hx : x ≠ y) : xs[i]? = some x := by
  rw [List.getElem?_append] at h
  split_ifs at h with hi
  · exact h
  · exact absurd (List.mem_singleton.mp (List.mem_of_getElem? h)) hx

end Change

/-- As many as the first ones, where these satisfy `p`. -/
theorem le_countP_of_first {xs : List α} {n : Nat} {p : α → Bool} (hn : n ≤ xs.length)
    (h : ∀ k x, k < n → xs[k]? = some x → p x = true) : n ≤ xs.countP p := by
  have first : (xs.take n).countP p = n := by
    rw [List.countP_eq_length.mpr, List.length_take_of_le hn]
    intro x hx
    obtain ⟨k, hk, rfl⟩ := List.mem_take_iff_getElem.mp hx
    exact h k _ (by omega) (List.getElem?_eq_getElem _)
  rw [← first]
  apply (List.take_sublist n xs).countP_le

end Sysprog
