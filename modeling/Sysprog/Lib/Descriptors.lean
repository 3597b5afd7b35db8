import Mathlib.Tactic
import Mathlib.Data.List.Basic

namespace Sysprog.Descriptors

/-- What a descriptor is open on. -/
inductive Description where
  | file (n : Nat)
  | readEnd (pipe : Nat)
  | writeEnd (pipe : Nat)
  deriving DecidableEq

/-- The descriptors of a process. Those past the end of the list are closed. -/
abbrev FdTable := List (Option Description)

namespace FdTable

def get (t : FdTable) (fd : Nat) : Option Description := t[fd]?.join

def put (t : FdTable) (fd : Nat) (d : Description) : FdTable :=
  if fd < t.length then t.set fd (some d)
  else t ++ List.replicate (fd - t.length) none ++ [some d]

/-- `close`. A closed descriptor stays closed. -/
def close (t : FdTable) (fd : Nat) : FdTable := t.set fd none

/-- `dup2`. It does nothing from a closed descriptor and nothing from a descriptor to itself. -/
def dup2 (t : FdTable) (old new : Nat) : FdTable :=
  match t.get old with
  | some d => if old = new then t else t.put new d
  | none => t

/-- The lowest closed descriptor. -/
def lowest (t : FdTable) : Nat := t.findIdx (· = none)

/-- `pipe`, of a pipe with the name `p`, on the two lowest closed descriptors: the table, and what
it stores to its argument. No result when there are not as many below `limit`. -/
def pipe (limit p : Nat) (t : FdTable) : Option (Nat × Nat × FdTable) :=
  let fd0 := t.lowest
  let t := t.put fd0 (.readEnd p)
  let fd1 := t.lowest
  if fd1 < limit then some (fd0, fd1, t.put fd1 (.writeEnd p)) else none

@[simp] theorem get_put_self (t : FdTable) (fd : Nat) (d : Description) :
    (t.put fd d).get fd = some d := by
  by_cases h : fd < t.length
  · simp [put, get, h]
  · have len : (t ++ List.replicate (fd - t.length) none).length = fd := by
      rw [List.length_append, List.length_replicate]
      omega
    simp only [put, if_neg h, get]
    rw [List.getElem?_append_right (by omega), len, Nat.sub_self]
    rfl

theorem get_put_of_ne (t : FdTable) {fd fd' : Nat} (h : fd' ≠ fd) (d : Description) :
    (t.put fd d).get fd' = t.get fd' := by
  by_cases hl : fd < t.length
  · simp [put, get, hl, List.getElem?_set_ne (Ne.symm h)]
  · simp only [put, if_neg hl, get]
    rcases Nat.lt_or_ge fd' t.length with hs | hs
    · rw [List.append_assoc, List.getElem?_append_left hs]
    · rw [List.getElem?_eq_none (l := t) hs, List.append_assoc, List.getElem?_append_right hs]
      rcases Nat.lt_or_ge (fd' - t.length) (fd - t.length) with hr | hr
      · rw [List.getElem?_append_left (by simpa using hr)]
        simp [hr]
      · rw [List.getElem?_eq_none (by simp; omega)]

@[simp] theorem get_close_self (t : FdTable) (fd : Nat) : (t.close fd).get fd = none := by
  by_cases h : fd < t.length <;> simp [close, get, h]

theorem get_close_of_ne (t : FdTable) {fd fd' : Nat} (h : fd' ≠ fd) :
    (t.close fd).get fd' = t.get fd' := by
  simp [close, get, List.getElem?_set_ne (Ne.symm h)]

@[simp] theorem dup2_self (t : FdTable) (fd : Nat) : t.dup2 fd fd = t := by
  simp only [dup2]
  split <;> simp

theorem get_dup2 {t : FdTable} {old : Nat} {d : Description} (h : t.get old = some d) (new : Nat) :
    (t.dup2 old new).get new = some d := by
  by_cases same : old = new
  · rw [same] at h ⊢
    rw [dup2_self, h]
  · simp [dup2, h, same]

theorem get_dup2_of_ne (t : FdTable) (old : Nat) {new fd : Nat} (h : fd ≠ new) :
    (t.dup2 old new).get fd = t.get fd := by
  simp only [dup2]
  split
  · split
    · rfl
    · exact get_put_of_ne t h _
  · rfl

theorem get_lowest (t : FdTable) : t.get t.lowest = none := by
  rcases Nat.lt_or_ge t.lowest t.length with h | h
  · have := List.findIdx_getElem (w := h)
    simp only [get, List.getElem?_eq_getElem h, Option.join_some]
    exact of_decide_eq_true this
  · simp [get, List.getElem?_eq_none h]

theorem get_of_lt_lowest {t : FdTable} {fd : Nat} (h : fd < t.lowest) : t.get fd ≠ none := by
  have hl : fd < t.length := Nat.lt_of_lt_of_le h List.findIdx_le_length
  have := List.not_of_lt_findIdx h
  simp only [get, List.getElem?_eq_getElem hl, Option.join_some]
  simpa using this

theorem lowest_eq {t : FdTable} {fd : Nat} (h : t.get fd = none) (hlt : ∀ k < fd, t.get k ≠ none) :
    t.lowest = fd := by
  rcases Nat.lt_trichotomy t.lowest fd with lt | eq | lt
  · exact absurd t.get_lowest (hlt _ lt)
  · exact eq
  · exact absurd h (get_of_lt_lowest lt)

/-- Closing the higher end of a new pipe makes it the lowest closed descriptor. -/
theorem lowest_close_pipe {t : FdTable} {fd : Nat} (d : Description) (h : fd = t.lowest) :
    ((t.put fd d).close fd).lowest = fd := by
  apply lowest_eq (get_close_self _ _)
  intro k hk
  rw [get_close_of_ne _ (by omega), get_put_of_ne _ (by omega)]
  exact get_of_lt_lowest (h ▸ hk)

theorem lowest_lt_lowest_put (t : FdTable) (d : Description) :
    t.lowest < (t.put t.lowest d).lowest := by
  have free := (t.put t.lowest d).get_lowest
  rcases Nat.lt_trichotomy (t.put t.lowest d).lowest t.lowest with lt | eq | lt
  · rw [get_put_of_ne t (Nat.ne_of_lt lt)] at free
    exact absurd free (get_of_lt_lowest lt)
  · rw [eq, get_put_self] at free
    cases free
  · exact lt

/-- What `pipe` does to a table. Behind `close` of the write end, that descriptor is the lowest
closed one. -/
structure Pipe (t : FdTable) (p fd0 fd1 : Nat) (u : FdTable) : Prop where
  lowest : fd0 = t.lowest
  lt : fd0 < fd1
  readEnd : u.get fd0 = some (.readEnd p)
  writeEnd : u.get fd1 = some (.writeEnd p)
  others : ∀ fd, fd ≠ fd0 → fd ≠ fd1 → u.get fd = t.get fd
  next : (u.close fd1).lowest = fd1

theorem pipe_spec {limit p fd0 fd1 : Nat} {t u : FdTable}
    (h : t.pipe limit p = some (fd0, fd1, u)) : Pipe t p fd0 fd1 u := by
  simp only [pipe, Option.ite_none_right_eq_some, Option.some.injEq, Prod.mk.injEq] at h
  obtain ⟨-, rfl, rfl, rfl⟩ := h
  have lt := t.lowest_lt_lowest_put (.readEnd p)
  refine ⟨rfl, lt, ?_, get_put_self _ _ _, ?_, lowest_close_pipe _ rfl⟩
  · rw [get_put_of_ne _ (Nat.ne_of_lt lt), get_put_self]
  · intro fd h0 h1
    rw [get_put_of_ne _ h1, get_put_of_ne _ h0]

/-- The closed descriptors below `limit`. -/
def free (limit : Nat) (t : FdTable) : Finset Nat :=
  (Finset.range limit).filter fun fd => t.get fd = none

end FdTable

end Sysprog.Descriptors
