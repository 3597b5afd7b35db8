import Mathlib.Tactic
import Mathlib.Data.List.Basic

namespace Sysprog

variable {α : Type*}

/-- A block of memory. A cell is `none` until something is stored there. -/
abbrev Block (α : Type*) := List (Option α)

namespace Block

def allocate (n : Nat) : Block α := List.replicate n none

/-- A store, with no result past the end of the block. -/
def store (b : Block α) (i : Nat) (x : α) : Option (Block α) :=
  if i < b.length then some (b.set i (some x)) else none

/-- Stores into the cells from `i` on. -/
def storeAll (b : Block α) (i : Nat) : List α → Option (Block α)
  | [] => some b
  | x :: xs => (b.store i x).bind fun b => storeAll b (i + 1) xs

/-- A load, with no result past the end or where nothing has been stored. -/
def load (b : Block α) (i : Nat) : Option α := b[i]?.join

/-- A block of `n` cells that begins with the first `len` cells of `b`. -/
def regrow (b : Block α) (len n : Nat) : Block α := b.take len ++ allocate (n - len)

/-- The cells that have been stored to. -/
def filled (b : Block α) : Nat := b.countP Option.isSome

/-- The first cells hold `xs`. -/
def Holds (b : Block α) (xs : List α) : Prop := xs.map some <+: b

theorem length_allocate (n : Nat) : (allocate n : Block α).length = n := List.length_replicate

theorem holds_nil (b : Block α) : Holds b [] := List.nil_prefix

theorem Holds.length_le {b : Block α} {xs : List α} (h : Holds b xs) : xs.length ≤ b.length := by
  simpa using List.IsPrefix.length_le h

/-- What a block holds is a matter of its first cells. -/
theorem Holds.append {b : Block α} {xs ys : List α} (h : Holds b (xs ++ ys)) : Holds b xs :=
  List.IsPrefix.trans (by simp) h

theorem Holds.load {b : Block α} {xs : List α} (h : Holds b xs) {i : Nat} (hi : i < xs.length) :
    b.load i = some xs[i] := by
  obtain ⟨rest, hb⟩ := h
  rw [← hb]
  simp [Block.load, List.getElem?_append_left, hi]

theorem Holds.eq {b : Block α} {xs ys : List α} (hx : Holds b xs) (hy : Holds b ys)
    (h : xs.length = ys.length) : xs = ys := by
  have same : xs.map some = ys.map some :=
    (List.prefix_of_prefix_length_le hx hy (by simp [h])).eq_of_length (by simp [h])
  exact List.map_injective_iff.mpr (Option.some_injective α) same

/-- Storing right behind what the block holds. -/
theorem Holds.store {b : Block α} {xs : List α} (h : Holds b xs) (x : α)
    (hb : xs.length < b.length) :
    ∃ b', b.store xs.length x = some b' ∧ b'.length = b.length ∧ Holds b' (xs ++ [x]) := by
  refine ⟨b.set xs.length (some x), by simp [Block.store, hb], by simp, ?_⟩
  obtain ⟨rest, rfl⟩ := h
  cases rest with
  | nil => simp at hb
  | cons r rest => exact ⟨rest, by simp⟩

/-- Storing more right behind what the block holds. -/
theorem Holds.storeAll {b : Block α} {xs : List α} (h : Holds b xs) (ys : List α)
    (hb : xs.length + ys.length ≤ b.length) :
    ∃ b', b.storeAll xs.length ys = some b' ∧ b'.length = b.length ∧ Holds b' (xs ++ ys) := by
  induction ys generalizing b xs with
  | nil => exact ⟨b, rfl, rfl, by simpa using h⟩
  | cons y ys ih =>
    rw [List.length_cons] at hb
    obtain ⟨b₁, hstore, length₁, holds₁⟩ := h.store y (by omega)
    have fits : (xs ++ [y]).length + ys.length ≤ b₁.length := by
      rw [List.length_append, List.length_singleton]
      omega
    obtain ⟨b₂, hrest, length₂, holds₂⟩ := ih holds₁ fits
    rw [List.length_append, List.length_singleton] at hrest
    refine ⟨b₂, ?_, length₂.trans length₁, by simpa using holds₂⟩
    rw [Block.storeAll, hstore]
    exact hrest

/-- A block that is full. -/
theorem Holds.eq_map {b : Block α} {xs : List α} (h : Holds b xs) (hb : b.length ≤ xs.length) :
    b = xs.map some :=
  (List.IsPrefix.eq_of_length_le h (by simpa using hb)).symm

theorem store_eq_none {b : Block α} {i : Nat} (h : b.length ≤ i) (x : α) : b.store i x = none := by
  simp [Block.store, Nat.not_lt.mpr h]

/-- Storing over what a block holds from there on. -/
theorem store_over {b : Block α} {xs : List α} (x : α) (h : xs.length < b.length) :
    store (xs.map some ++ b.drop xs.length) xs.length x =
      some ((xs ++ [x]).map some ++ b.drop (xs.length + 1)) := by
  have inside : xs.length < (xs.map some ++ b.drop xs.length).length := by
    simp only [List.length_append, List.length_map, List.length_drop]
    omega
  have first : (b.drop xs.length).set 0 (some x) = some x :: b.drop (xs.length + 1) := by
    rw [List.drop_eq_getElem_cons h]
    rfl
  rw [store, if_pos inside]
  simpa using first

theorem Holds.regrow {b : Block α} {xs : List α} (h : Holds b xs) {len n : Nat}
    (hlen : len = xs.length) (hn : len ≤ n) :
    Holds (b.regrow len n) xs ∧ (b.regrow len n).length = n := by
  have hb := h.length_le
  obtain ⟨rest, rfl⟩ := h
  subst hlen
  refine ⟨⟨allocate (n - xs.length), by simp [Block.regrow]⟩, ?_⟩
  simp only [Block.regrow, List.length_append, List.length_take, List.length_map, length_allocate]
  omega

/-- A block that holds `xs` and nothing else. -/
def Exactly (b : Block α) (xs : List α) : Prop := b = xs.map some ++ allocate (b.length - xs.length)

theorem exactly_allocate (n : Nat) : Exactly (allocate n : Block α) [] := by
  simp [Exactly, length_allocate]

theorem Exactly.holds {b : Block α} {xs : List α} (h : Exactly b xs) : Holds b xs := ⟨_, h.symm⟩

theorem Exactly.filled {b : Block α} {xs : List α} (h : Exactly b xs) : b.filled = xs.length := by
  rw [h]
  simp [Block.filled, allocate, List.countP_replicate, List.countP_map, Function.comp_def]

theorem Exactly.store {b : Block α} {xs : List α} (h : Exactly b xs) (x : α)
    (hb : xs.length < b.length) :
    ∃ b', b.store xs.length x = some b' ∧ b'.length = b.length ∧ Exactly b' (xs ++ [x]) := by
  refine ⟨b.set xs.length (some x), by simp [Block.store, hb], by simp, ?_⟩
  have split : b.length - xs.length = (b.length - (xs.length + 1)) + 1 := by omega
  unfold Exactly
  simp only [List.length_set, List.length_append, List.length_singleton]
  conv_lhs => rw [h]
  simp [allocate, split, List.replicate_succ]

end Block

end Sysprog
