import Sysprog.Lib.Bytes

namespace Sysprog.Logging

/-- `std::string::npos`, and what -1 is as a `size_t`. -/
def npos : Nat := 2 ^ 64 - 1

/-- The name of a logger, a `std::string`; no place in one is `npos`. -/
@[ext] structure Name where
  chars : Bytes
  bounded : chars.length ≤ npos

/-- The place of the last `c`. -/
def lastIndex (c : UInt8) : Bytes → Option Nat
  | [] => none
  | b :: s =>
    match lastIndex c s with
    | some i => some (i + 1)
    | none => if b = c then some 0 else none

namespace Name

def findLastOf (name : Name) (c : UInt8) : Nat := (lastIndex c name.chars).getD npos

/-- `substr(0, idx)`. -/
def substr (name : Name) (idx : Nat) : Name :=
  ⟨name.chars.take idx, (List.length_take_le' idx name.chars).trans name.bounded⟩

/-- What the loop of `select` goes on with when no logger has this name. -/
def stripped (name : Name) : Name :=
  let idx := name.findLastOf (byte '.')
  let idx := if idx = npos then 0 else idx
  name.substr idx

end Name

theorem lastIndex_of_notMem {c : UInt8} {s : Bytes} (h : c ∉ s) : lastIndex c s = none := by
  induction s with
  | nil => rfl
  | cons b s ih =>
    rw [List.mem_cons, not_or] at h
    simp [lastIndex, ih h.2, Ne.symm h.1]

theorem lastIndex_of_last {c : UInt8} (front : Bytes) {back : Bytes} (h : c ∉ back) :
    lastIndex c (front ++ c :: back) = some front.length := by
  induction front with
  | nil => simp [lastIndex, lastIndex_of_notMem h]
  | cons b front ih => simp [lastIndex, ih]

/-- A text has no `c`, or a last one. -/
theorem last_cases (c : UInt8) (s : Bytes) :
    c ∉ s ∨ ∃ front back, s = front ++ c :: back ∧ c ∉ back := by
  induction s with
  | nil => exact .inl (by simp)
  | cons b s ih =>
    rcases ih with h | ⟨front, back, rfl, h⟩
    · by_cases hb : b = c
      · exact .inr ⟨[], s, by rw [hb]; rfl, h⟩
      · exact .inl (by simp [h, Ne.symm hb])
    · exact .inr ⟨b :: front, back, rfl, h⟩

namespace Name

variable {name : Name} {front back : Bytes}

theorem stripped_of_notMem (h : byte '.' ∉ name.chars) : name.stripped.chars = [] := by
  simp [stripped, substr, findLastOf, lastIndex_of_notMem h]

theorem stripped_of_last (h : name.chars = front ++ byte '.' :: back) (last : byte '.' ∉ back) :
    name.stripped.chars = front := by
  have index : name.findLastOf (byte '.') = front.length := by
    rw [findLastOf, h, lastIndex_of_last front last]
    rfl
  have place : front.length ≠ npos := by
    have := name.bounded
    rw [h, List.length_append, List.length_cons] at this
    omega
  simp only [stripped, index, if_neg place, substr, h]
  exact List.take_left

theorem stripped_length (name : Name) (h : name.stripped.chars ≠ []) :
    name.stripped.chars.length < name.chars.length := by
  rcases last_cases (byte '.') name.chars with none | ⟨front, back, eq, last⟩
  · exact absurd (stripped_of_notMem none) h
  · rw [stripped_of_last eq last, eq, List.length_append, List.length_cons]
    omega

end Name

/-- `select`; `get` is `spdlog::get`, and `root` is `_root`, which is null until `Start`. -/
def select {Logger : Type} (get : Name → Option Logger) (root : Option Logger) (tmpName : Name) :
    Option Logger :=
  match get tmpName with
  | some result => some result
  | none =>
    if _h : tmpName.stripped.chars ≠ [] then select get root tmpName.stripped else root
termination_by tmpName.chars.length
decreasing_by exact Name.stripped_length tmpName _h

/-- The name itself, or what stands before one of its dots, where that is something. -/
def Ancestor (name n : Bytes) : Prop := n = name ∨ n ≠ [] ∧ n ++ [byte '.'] <+: name

/-- The logger registered under the longest of these names, and the root where there is none. -/
def Selected {Logger : Type} (get : Name → Option Logger) (root : Option Logger) (name : Name)
    (result : Option Logger) : Prop :=
  (∃ n logger, Ancestor name.chars n.chars ∧ get n = some logger ∧
    (∀ m, Ancestor name.chars m.chars → get m ≠ none → m.chars.length ≤ n.chars.length) ∧
    result = some logger) ∨
  ((∀ n, Ancestor name.chars n.chars → get n = none) ∧ result = root)

/-- What stands before a dot, of a text whose last dot is known. -/
theorem before_dot {c : UInt8} {n front back : Bytes} (last : c ∉ back) :
    n ++ [c] <+: front ++ c :: back ↔ n = front ∨ n ++ [c] <+: front := by
  induction front generalizing n with
  | nil =>
    cases n with
    | nil => simp
    | cons b n =>
      have no : ¬ n ++ [c] <+: back := fun h => last (h.subset (by simp))
      simp [List.cons_prefix_cons, no]
  | cons a front ih =>
    cases n with
    | nil => simp [List.cons_prefix_cons]
    | cons b n => 
      simp only [List.cons_append, List.cons_prefix_cons, ih, List.cons.injEq]
      tauto

theorem Ancestor.length_le {name n : Bytes} (h : Ancestor name n) : n.length ≤ name.length := by
  rcases h with rfl | ⟨-, h⟩
  · exact Nat.le_refl _
  · have := h.length_le
    rw [List.length_append] at this
    omega

/-- The ancestors of a name are the name and those of what the loop goes on with. -/
theorem ancestor_iff (name : Name) (n : Bytes) :
    Ancestor name.chars n ↔
      n = name.chars ∨ name.stripped.chars ≠ [] ∧ Ancestor name.stripped.chars n := by
  rcases last_cases (byte '.') name.chars with none | ⟨front, back, eq, last⟩
  · rw [Name.stripped_of_notMem none]
    have no : ¬ n ++ [byte '.'] <+: name.chars := fun h => none (h.subset (by simp))
    simp [Ancestor, no]
  · rw [Name.stripped_of_last eq last, Ancestor, eq, before_dot last]
    apply or_congr_right
    constructor
    · rintro ⟨hn, rfl | h⟩
      · exact ⟨hn, .inl rfl⟩
      · refine ⟨?_, .inr ⟨hn, h⟩⟩
        rintro rfl
        simp at h
    · rintro ⟨hf, rfl | ⟨hn, h⟩⟩
      · exact ⟨hf, .inl rfl⟩
      · exact ⟨hn, .inr h⟩

/-- `select` gives the logger of the closest ancestor that has one. -/
theorem select_selected {Logger : Type} (get : Name → Option Logger) (root : Option Logger)
    (name : Name) : Selected get root name (select get root name) := by
  fun_induction select get root name with
  | case1 tmpName result found =>
    refine .inl ⟨tmpName, result, .inl rfl, found, ?_, rfl⟩
    intro m hm _
    exact hm.length_le
  | case2 tmpName missing more ih =>
    have longer : ∀ m : Name, Ancestor tmpName.chars m.chars → get m ≠ none →
        Ancestor tmpName.stripped.chars m.chars := by
      intro m hm some
      rcases (ancestor_iff tmpName m.chars).mp hm with eq | ⟨-, h⟩
      · rw [Name.ext eq] at some
        exact absurd missing some
      · exact h
    rcases ih with ⟨n, logger, hn, found, longest, result⟩ | ⟨missing', result⟩
    · refine .inl ⟨n, logger, (ancestor_iff tmpName n.chars).mpr (.inr ⟨more, hn⟩), found, ?_, result⟩
      intro m hm some
      exact longest m (longer m hm some) some
    · refine .inr ⟨?_, result⟩
      intro m hm
      by_contra some
      exact some (missing' m (longer m hm some))
  | case3 tmpName missing done =>
    refine .inr ⟨?_, rfl⟩
    intro m hm
    rcases (ancestor_iff tmpName m.chars).mp hm with eq | ⟨more, -⟩
    · rw [Name.ext eq]
      exact missing
    · exact absurd more done

end Sysprog.Logging
