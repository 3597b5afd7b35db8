import Sysprog.Lib.Bytes
import Sysprog.Lib.Memory

namespace Sysprog.Ipc

/-- Where a process stands in `write_to_shared_mem` or `read_from_shared_mem`. -/
inductive Pc where
  /-- At the `while` over its flag. -/
  | wait
  /-- In `memcpy`, behind `j` bytes. -/
  | copy (j : Nat)
  /-- Between the stores to the two flags. -/
  | flags
  deriving DecidableEq

/-- The memory that is shared: `mem[IS_READABLE]`, `mem[IS_WRITABLE]` and the bytes behind them. -/
structure Mapping where
  isReadable : Bool
  isWritable : Bool
  mem : Block UInt8
  deriving DecidableEq

/-- The process that writes, and what it has yet to write: `size` bytes at `src`, and those of the
calls behind this one. -/
structure Writer where
  pc : Pc
  calls : List Bytes
  deriving DecidableEq

/-- The process that reads: its `size`, and what it has stored at `dst` so far. -/
structure Reader where
  pc : Pc
  size : Nat
  dst : Bytes
  deriving DecidableEq

/-- One step of `write_to_shared_mem`: a look at the flag, one byte of `memcpy`, or one store to a
flag. There is none behind the last call. -/
def Writer.step (memSize : Nat) (m : Mapping) (w : Writer) : Option (Mapping × Writer) :=
  match w.calls, w.pc with
  | [], _ => none
  | _ :: _, .wait => some (m, if m.isWritable then { w with pc := .copy 0 } else w)
  | src :: _, .copy j =>
    if j < min memSize src.length then do
      let c ← src[j]?
      let mem ← m.mem.store j c
      some ({ m with mem }, { w with pc := .copy (j + 1) })
    else some ({ m with isWritable := false }, { w with pc := .flags })
  | src :: calls, .flags =>
    some ({ m with isReadable := true },
      ⟨.wait, if src.length ≤ memSize then calls else src.drop memSize :: calls⟩)

/-- One step of `read_from_shared_mem`; at its end it returns what is at `dst`. -/
def Reader.step (memSize : Nat) (m : Mapping) (r : Reader) : Option (Mapping × (Bytes ⊕ Reader)) :=
  match r.pc with
  | .wait => some (m, .inr (if m.isReadable then { r with pc := .copy 0 } else r))
  | .copy j =>
    if j < min memSize r.size then do
      let c ← m.mem.load j
      some (m, .inr { r with pc := .copy (j + 1), dst := r.dst ++ [c] })
    else some ({ m with isReadable := false }, .inr { r with pc := .flags })
  | .flags =>
    some ({ m with isWritable := true },
      if r.size ≤ memSize then .inl r.dst
      else .inr { r with pc := .wait, size := r.size - memSize })

variable {memSize : Nat}

/-- What is left of the calls when the next part is through. -/
def advance (memSize : Nat) : List Bytes → List Bytes
  | [] => []
  | b :: bs => if b.length ≤ memSize then bs else b.drop memSize :: bs

/-- The two processes on one mapping, when the one that reads has yet to get the bytes `left` of the
calls, without the part under way, and stands at `pc`. -/
inductive Sync (memSize : Nat) (m : Mapping) (w : Writer) (left : List Bytes) : Pc → Prop
  | idle (readable : m.isReadable = false) (writable : m.isWritable = true)
      (calls : w.calls = left) (pc : w.pc = .wait) : Sync memSize m w left .wait
  | writing {b : Bytes} {bs : List Bytes} {j : Nat} (readable : m.isReadable = false)
      (writable : m.isWritable = true) (calls : w.calls = left) (head : left = b :: bs)
      (pc : w.pc = .copy j) (le : j ≤ min memSize b.length) (holds : m.mem.Holds (b.take j)) :
      Sync memSize m w left .wait
  | written {b : Bytes} {bs : List Bytes} (readable : m.isReadable = false)
      (writable : m.isWritable = false) (calls : w.calls = left) (head : left = b :: bs)
      (pc : w.pc = .flags) (holds : m.mem.Holds (b.take memSize)) : Sync memSize m w left .wait
  | full {b : Bytes} {bs : List Bytes} (readable : m.isReadable = true)
      (writable : m.isWritable = false) (calls : w.calls = advance memSize left)
      (head : left = b :: bs) (pc : w.pc = .wait) (holds : m.mem.Holds (b.take memSize)) :
      Sync memSize m w left .wait
  | reading {b : Bytes} {bs : List Bytes} {j : Nat} (readable : m.isReadable = true)
      (writable : m.isWritable = false) (calls : w.calls = advance memSize left)
      (head : left = b :: bs) (pc : w.pc = .wait) (holds : m.mem.Holds (b.take memSize))
      (le : j ≤ min memSize b.length) : Sync memSize m w left (.copy j)
  | read {b : Bytes} {bs : List Bytes} (readable : m.isReadable = false)
      (writable : m.isWritable = false) (calls : w.calls = advance memSize left)
      (head : left = b :: bs) (pc : w.pc = .wait) : Sync memSize m w left .flags

/-- How many steps of a part of `n` bytes are behind. -/
def Pc.passed (n : Nat) : Pc → Nat
  | .wait => 0
  | .copy j => j + 1
  | .flags => n + 2

/-- More than a call for `n` bytes can take in steps other than looks at a flag that is not set. -/
def cost (n : Nat) : Nat := 4 * (n + 1)

def Writer.rank (memSize : Nat) (w : Writer) : Nat :=
  match w.calls with
  | [] => 0
  | b :: bs =>
    cost b.length - w.pc.passed (min memSize b.length) + (bs.map fun b => cost b.length).sum

def Reader.rank (memSize : Nat) (r : Reader) : Nat :=
  cost r.size - r.pc.passed (min memSize r.size)

theorem Writer.rank_wait (calls : List Bytes) :
    Writer.rank memSize ⟨.wait, calls⟩ = (calls.map fun b => cost b.length).sum := by
  cases calls with
  | nil => rfl
  | cons b bs => simp [Writer.rank, Pc.passed]

theorem Reader.rank_wait (size : Nat) (dst : Bytes) :
    Reader.rank memSize ⟨.wait, size, dst⟩ = cost size := rfl

theorem take_holds {m : Block UInt8} {b : Bytes} {j : Nat} (hj : j < b.length)
    (hm : j < m.length) (h : m.Holds (b.take j)) :
    ∃ m', m.store j b[j] = some m' ∧ m'.length = m.length ∧ m'.Holds (b.take (j + 1)) := by
  have length : (b.take j).length = j := List.length_take_of_le hj.le
  obtain ⟨m', store, same, holds⟩ := h.store b[j] (by rw [length]; exact hm)
  rw [length] at store
  refine ⟨m', store, same, ?_⟩
  rwa [← List.take_succ_eq_append_getElem hj] at holds

/-- The writer looks at a flag that is not set. -/
theorem Writer.step_blocked {m : Mapping} {w : Writer} (hw : w.calls ≠ []) (hpc : w.pc = .wait)
    (writable : m.isWritable = false) : w.step memSize m = some (m, w) := by
  obtain ⟨b, bs, hcalls⟩ := List.exists_cons_of_ne_nil hw
  simp [Writer.step, hcalls, hpc, writable]

/-- What the writer does leaves the reader where it is, and goes on unless the writer waits for a
flag that is not set. -/
theorem Sync.writer_step {m : Mapping} {w : Writer} {left : List Bytes} {pc : Pc}
    (h : Sync memSize m w left pc) (hlen : m.mem.length = memSize) (pos : 0 < memSize)
    (hw : w.calls ≠ []) :
    ∃ m' w', w.step memSize m = some (m', w') ∧ Sync memSize m' w' left pc ∧
      m'.mem.length = memSize ∧
      (m' = m ∧ w' = w ∧ m.isWritable = false ∧ w.pc = .wait ∨
        w'.rank memSize < w.rank memSize) := by
  cases h with
  | idle readable writable calls hpc =>
    obtain ⟨b, bs, hcalls⟩ := List.exists_cons_of_ne_nil hw
    refine ⟨m, ⟨.copy 0, w.calls⟩, by simp [Writer.step, hcalls, hpc, writable], ?_, hlen, .inr ?_⟩
    · exact .writing readable writable calls (calls.symm.trans hcalls) rfl (Nat.zero_le _)
        (Block.holds_nil _)
    · simp only [Writer.rank, hcalls, hpc, Pc.passed, cost]
      omega
  | @writing b bs j readable writable calls head hpc le holds =>
    have hcalls := calls.trans head
    by_cases hj : j < min memSize b.length
    · have hb : j < b.length := Nat.lt_of_lt_of_le hj (Nat.min_le_right _ _)
      obtain ⟨mem, store, same, holds⟩ := take_holds hb (by omega) holds
      refine ⟨{ m with mem }, ⟨.copy (j + 1), w.calls⟩, ?_, ?_, same.trans hlen, .inr ?_⟩
      · simp [Writer.step, hcalls, hpc, Nat.lt_min.mp hj, store]
      · exact .writing readable writable calls head rfl hj holds
      · simp only [Writer.rank, hcalls, hpc, Pc.passed, cost]
        omega
    · have through : j = min memSize b.length := Nat.le_antisymm le (Nat.le_of_not_lt hj)
      refine ⟨{ m with isWritable := false }, ⟨.flags, w.calls⟩, ?_, ?_, hlen, .inr ?_⟩
      · simp only [Writer.step, hcalls, hpc, if_neg hj]
      · rw [through, ← List.take_eq_take_min] at holds
        exact .written readable rfl calls head rfl holds
      · simp only [Writer.rank, hcalls, hpc, Pc.passed, cost]
        omega
  | @written b bs readable writable calls head hpc holds =>
    have hcalls := calls.trans head
    refine ⟨{ m with isReadable := true }, ⟨.wait, advance memSize left⟩, ?_, ?_, hlen, .inr ?_⟩
    · simp only [Writer.step, hcalls, hpc, head, advance]
    · exact .full rfl writable rfl head rfl holds
    · have before : w.rank memSize =
          cost b.length - (min memSize b.length + 2) + (bs.map fun b => cost b.length).sum := by
        simp only [Writer.rank, hcalls, hpc, Pc.passed]
      rw [before, Writer.rank_wait, head, advance]
      split_ifs with last
      · rw [cost]
        omega
      · rw [List.map_cons, List.sum_cons, List.length_drop, cost, cost]
        omega
  | full readable writable calls head hpc holds =>
    exact ⟨m, w, Writer.step_blocked hw hpc writable, .full readable writable calls head hpc holds,
      hlen, .inl ⟨rfl, rfl, writable, hpc⟩⟩
  | reading readable writable calls head hpc holds le =>
    exact ⟨m, w, Writer.step_blocked hw hpc writable,
      .reading readable writable calls head hpc holds le, hlen, .inl ⟨rfl, rfl, writable, hpc⟩⟩
  | read readable writable calls head hpc =>
    exact ⟨m, w, Writer.step_blocked hw hpc writable, .read readable writable calls head hpc, hlen,
      .inl ⟨rfl, rfl, writable, hpc⟩⟩

/-- How many bytes of the part under way are behind. -/
def Pc.stored (memSize : Nat) : Pc → Nat
  | .wait => 0
  | .copy j => j
  | .flags => memSize

/-- The reader has `prior` from the parts that are through, and gets `b` from here on. -/
structure Reads (memSize : Nat) (r : Reader) (prior b : Bytes) : Prop where
  size : r.size = b.length
  dst : r.dst = prior ++ b.take (r.pc.stored memSize)

/-- A call has returned all bytes, or goes on with the rest of them. -/
inductive Outcome (memSize : Nat) (m m' : Mapping) (w : Writer) (r : Reader) (whole : Bytes)
    (bs : List Bytes) : Bytes ⊕ Reader → Prop
  | returned (sync : Sync memSize m' w bs .wait) (rank : 0 < r.rank memSize) :
      Outcome memSize m m' w r whole bs (.inl whole)
  | goes {r' : Reader} {prior b : Bytes} (split : prior ++ b = whole)
      (reads : Reads memSize r' prior b)
      (sync : Sync memSize m' w (b :: bs) r'.pc)
      (rank : m' = m ∧ r' = r ∧ m.isReadable = false ∧ r.pc = .wait ∨
        r'.rank memSize < r.rank memSize) : Outcome memSize m m' w r whole bs (.inr r')

/-- The reader looks at a flag that is not set. -/
theorem Sync.reader_blocked {m : Mapping} {w : Writer} {b prior dst : Bytes} {bs : List Bytes}
    {size : Nat} (h : Sync memSize m w (b :: bs) .wait)
    (hr : Reads memSize ⟨.wait, size, dst⟩ prior b) (readable : m.isReadable = false) :
    ∃ m' x, Reader.step memSize m ⟨.wait, size, dst⟩ = some (m', x) ∧ m'.mem = m.mem ∧
      Outcome memSize m m' w ⟨.wait, size, dst⟩ (prior ++ b) bs x := by
  refine ⟨m, .inr ⟨.wait, size, dst⟩, by simp [Reader.step, readable], rfl, ?_⟩
  exact .goes rfl hr h (.inl ⟨rfl, rfl, readable, rfl⟩)

/-- What the reader does leaves the writer where it is, and goes on unless the reader waits for a
flag that is not set. -/
theorem Sync.reader_step {m : Mapping} {w : Writer} {b prior : Bytes} {bs : List Bytes} {r : Reader}
    (h : Sync memSize m w (b :: bs) r.pc) (hr : Reads memSize r prior b) (pos : 0 < memSize) :
    ∃ m' x, r.step memSize m = some (m', x) ∧ m'.mem = m.mem ∧
      Outcome memSize m m' w r (prior ++ b) bs x := by
  obtain ⟨pc, size, dst⟩ := r
  have hsize : size = b.length := hr.size
  have hdst : dst = prior ++ b.take (pc.stored memSize) := hr.dst
  cases h with
  | idle readable writable calls wpc =>
    exact Sync.reader_blocked (.idle readable writable calls wpc) hr readable
  | writing readable writable calls head wpc le holds =>
    exact Sync.reader_blocked (.writing readable writable calls head wpc le holds) hr readable
  | written readable writable calls head wpc holds =>
    exact Sync.reader_blocked (.written readable writable calls head wpc holds) hr readable
  | full readable writable calls head wpc holds =>
    refine ⟨m, .inr ⟨.copy 0, size, dst⟩, by simp [Reader.step, readable], rfl, ?_⟩
    refine .goes rfl ⟨hsize, hdst⟩ (.reading readable writable calls head wpc holds (Nat.zero_le _))
      (.inr ?_)
    simp only [Reader.rank, Pc.passed, cost]
    omega
  | @reading b' bs' j readable writable calls head wpc holds le =>
    obtain ⟨rfl, rfl⟩ := List.cons.inj head
    by_cases hj : j < min memSize b.length
    · obtain ⟨hm, hb⟩ := Nat.lt_min.mp hj
      have load : m.mem.load j = some b[j] := by
        rw [holds.load (by rw [List.length_take]; omega), List.getElem_take]
      refine ⟨m, .inr ⟨.copy (j + 1), size, dst ++ [b[j]]⟩, ?_, rfl, ?_⟩
      · simp [Reader.step, hsize, hm, hb, load]
      · refine .goes rfl ⟨hsize, ?_⟩ (.reading readable writable calls rfl wpc holds hj) (.inr ?_)
        · rw [hdst, List.append_assoc]
          exact congrArg (prior ++ ·) (List.take_succ_eq_append_getElem hb).symm
        · simp only [Reader.rank, Pc.passed, cost, hsize]
          omega
    · have through : j = min memSize b.length := Nat.le_antisymm le (Nat.le_of_not_lt hj)
      refine ⟨{ m with isReadable := false }, .inr ⟨.flags, size, dst⟩, ?_, rfl, ?_⟩
      · simp only [Reader.step, hsize, if_neg hj]
      · refine .goes rfl ⟨hsize, ?_⟩ (.read rfl writable calls rfl wpc) (.inr ?_)
        · rw [hdst]
          apply congrArg (prior ++ ·)
          rw [Pc.stored, through, ← List.take_eq_take_min]
          rfl
        · simp only [Reader.rank, Pc.passed, cost, hsize]
          omega
  | read readable writable calls head wpc =>
    obtain ⟨rfl, rfl⟩ := List.cons.inj head
    refine ⟨{ m with isWritable := true }, _, rfl, rfl, ?_⟩
    by_cases last : b.length ≤ memSize
    · have whole : dst = prior ++ b := by
        rw [hdst]
        exact congrArg (prior ++ ·) (List.take_of_length_le last)
      rw [advance, if_pos last] at calls
      rw [hsize, if_pos last, whole]
      refine .returned (.idle readable rfl calls wpc) ?_
      simp only [Reader.rank, Pc.passed, cost]
      omega
    · rw [advance, if_neg last] at calls
      rw [hsize, if_neg last]
      have split : (prior ++ b.take memSize) ++ b.drop memSize = prior ++ b := by
        rw [List.append_assoc, List.take_append_drop]
      refine .goes split ⟨?_, ?_⟩ (.idle readable rfl calls wpc) (.inr ?_)
      · exact List.length_drop.symm
      · rw [hdst]
        exact (List.append_nil _).symm
      · simp only [Reader.rank, Pc.passed, cost]
        omega

/-- The two are never in `memcpy` at once. -/
theorem Sync.exclusive {m : Mapping} {w : Writer} {left : List Bytes} {pc : Pc}
    (h : Sync memSize m w left pc) {j k : Nat} (hw : w.pc = .copy j) : pc ≠ .copy k := by
  cases h with
  | reading readable writable calls head wpc holds le =>
    rw [wpc] at hw
    cases hw
  | _ => simp

/-- While there is something to read, not both wait for a flag that is not set. -/
theorem Sync.moves {m : Mapping} {w : Writer} {b : Bytes} {bs : List Bytes} {pc : Pc}
    (h : Sync memSize m w (b :: bs) pc) :
    w.calls ≠ [] ∧ ¬ (m.isWritable = false ∧ w.pc = .wait) ∨
      ¬ (m.isReadable = false ∧ pc = .wait) := by
  cases h with
  | idle readable writable calls wpc => simp [calls, writable]
  | writing readable writable calls head wpc le holds => simp [calls, writable]
  | written readable writable calls head wpc holds => simp [calls, wpc]
  | full readable writable calls head wpc holds => simp [readable]
  | reading readable writable calls head wpc holds le => simp
  | read readable writable calls head wpc => simp

/-- A writer whose bytes have all been read is through. -/
theorem Sync.through {m : Mapping} {w : Writer} {pc : Pc} (h : Sync memSize m w [] pc) :
    w.calls = [] := by
  cases h with
  | idle readable writable calls wpc => exact calls
  | writing readable writable calls head wpc le holds => exact calls
  | written readable writable calls head wpc holds => exact calls
  | full readable writable calls head wpc holds => exact calls
  | reading readable writable calls head wpc holds le => exact calls
  | read readable writable calls head wpc => exact calls

end Sysprog.Ipc
