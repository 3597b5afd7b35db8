import Mathlib.Tactic
import Mathlib.Data.List.Basic

namespace Sysprog

/-- A `std::string` or a byte buffer. -/
abbrev Bytes := List UInt8

/-- The byte of an ASCII character. -/
def byte (c : Char) : UInt8 := c.toNat.toUInt8

/-- The bytes of an ASCII string literal. -/
def text (s : String) : Bytes := s.toList.map byte

def crlf : Bytes := text "\r\n"

/-- `c >= '0' && c <= '9'`. -/
def isDigit (c : UInt8) : Bool := byte '0' ≤ c && c ≤ byte '9'

/-- `c - '0'` of a digit. -/
def digitVal (c : UInt8) : Nat := c.toNat - (byte '0').toNat

/-- Decimal notation, as a stream prints a natural number. -/
def decimal (n : Nat) : Bytes := (Nat.toDigits 10 n).map byte

/-- Reads digits onto an already read value, most significant first. -/
def ofDigits (acc : Nat) (ds : Bytes) : Nat := ds.foldl (fun a c => a * 10 + digitVal c) acc

theorem digitChar_byte (d : Nat) (h : d < 10) :
    isDigit (byte d.digitChar) = true ∧ digitVal (byte d.digitChar) = d := by
  interval_cases d <;> decide

theorem decimal_of_lt {n : Nat} (h : n < 10) : decimal n = [byte n.digitChar] := by
  simp [decimal, Nat.toDigits_of_lt_base h]

theorem decimal_of_le {n : Nat} (h : 10 ≤ n) :
    decimal n = decimal (n / 10) ++ [byte (n % 10).digitChar] := by
  simp [decimal, Nat.toDigits_of_base_le (b := 10) (by decide) h]

theorem decimal_isDigit (n : Nat) : ∀ c ∈ decimal n, isDigit c = true := by
  induction n using Nat.strongRecOn with
  | ind n ih =>
    intro c hc
    by_cases h : n < 10
    · rw [decimal_of_lt h] at hc
      rw [List.mem_singleton.mp hc]
      exact (digitChar_byte n h).1
    · rw [decimal_of_le (Nat.le_of_not_lt h)] at hc
      rcases List.mem_append.mp hc with hc | hc
      · exact ih (n / 10) (by omega) c hc
      · rw [List.mem_singleton.mp hc]
        exact (digitChar_byte (n % 10) (by omega)).1

theorem ofDigits_append (acc : Nat) (ds es : Bytes) :
    ofDigits acc (ds ++ es) = ofDigits (ofDigits acc ds) es := by
  simp [ofDigits, List.foldl_append]

/-- Reading back what was printed. -/
theorem ofDigits_decimal (n : Nat) : ofDigits 0 (decimal n) = n := by
  induction n using Nat.strongRecOn with
  | ind n ih =>
    by_cases h : n < 10
    · simp [decimal_of_lt h, ofDigits, digitChar_byte n h]
    · rw [decimal_of_le (Nat.le_of_not_lt h), ofDigits_append, ih (n / 10) (by omega)]
      simp only [ofDigits, List.foldl_cons, List.foldl_nil, (digitChar_byte (n % 10) (by omega)).2]
      omega

theorem ofDigits_ge (acc : Nat) (ds : Bytes) : acc ≤ ofDigits acc ds := by
  induction ds generalizing acc with
  | nil => exact Nat.le_refl _
  | cons d ds ih =>
    have h := ih (acc * 10 + digitVal d)
    simp only [ofDigits, List.foldl_cons] at h ⊢
    omega

theorem decimal_ne_nil (n : Nat) : decimal n ≠ [] := by simp [decimal]

/-- A larger number is not printed shorter. -/
theorem decimal_length_mono {m n : Nat} (h : m ≤ n) : (decimal m).length ≤ (decimal n).length := by
  simp only [decimal, List.length_map]
  rw [Nat.length_toDigits_le_iff (by decide) Nat.length_toDigits_pos]
  exact Nat.lt_of_le_of_lt h
    ((Nat.length_toDigits_le_iff (by decide) Nat.length_toDigits_pos).mp (Nat.le_refl _))

theorem digitVal_lt (c : UInt8) : digitVal c < 2 ^ 8 :=
  Nat.lt_of_le_of_lt (Nat.sub_le _ _) c.toNat_lt

theorem forall_of_all {p : UInt8 → Prop} [DecidablePred p] {bs : Bytes}
    (h : bs.all p = true) : ∀ b ∈ bs, p b := by
  intro b hb
  exact of_decide_eq_true (List.all_eq_true.mp h b hb)

/-- A digit is none of the separators of a request line. -/
theorem isDigit_ne {c : UInt8} (h : isDigit c = true) :
    c ≠ byte ' ' ∧ c ≠ byte '\r' ∧ c ≠ byte '-' := by
  refine ⟨?_, ?_, ?_⟩ <;> rintro rfl <;> revert h <;> decide

end Sysprog
