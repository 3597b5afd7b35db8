import Mathlib.Data.List.GetD
import Sysprog.Lib.Bytes

namespace Sysprog

/-- The bytes at all addresses. -/
abbrev Memory := ℤ → UInt8

namespace Memory

/-- The `n` bytes from `low` on. -/
def bytes (m : Memory) (low : ℤ) (n : ℕ) : Bytes := (List.range n).map fun i : ℕ => m (low + i)

/-- `memcpy`: the bytes from `low` on become `bs`. -/
def copy (m : Memory) (low : ℤ) (bs : Bytes) : Memory := fun a =>
  if low ≤ a then bs.getD (a - low).toNat (m a) else m a

theorem copy_below (m : Memory) (low : ℤ) (bs : Bytes) {a : ℤ} (h : a < low) :
    m.copy low bs a = m a := if_neg (Int.not_le.mpr h)

/-- Bytes of one memory, copied to where they were taken from. -/
theorem copy_bytes (m saved : Memory) (low : ℤ) (n : ℕ) (a : ℤ) :
    m.copy low (saved.bytes low n) a = if low ≤ a ∧ a < low + n then saved a else m a := by
  by_cases below : a < low
  · rw [copy_below m low _ below, if_neg (by omega)]
  · have le : low ≤ a := Int.not_lt.mp below
    rw [copy, if_pos le, bytes]
    by_cases inside : a < low + n
    · have lt : (a - low).toNat < n := by omega
      have there : low + ((a - low).toNat : ℤ) = a := by omega
      rw [if_pos ⟨le, inside⟩, List.getD_eq_getElem _ _ (by simpa using lt), List.getElem_map,
        List.getElem_range, there]
    · have past : n ≤ (a - low).toNat := by omega
      rw [if_neg (by omega), List.getD_eq_default _ _ (by simpa using past)]

end Memory

end Sysprog
