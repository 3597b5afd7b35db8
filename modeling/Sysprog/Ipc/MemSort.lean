import Sysprog.Ipc.SharedMem
import Sysprog.Lib.Census
import Sysprog.Lib.Progress

namespace Sysprog.Ipc

/-- The least significant byte first. -/
def bytesOf : Nat → Nat → Bytes
  | 0, _ => []
  | k + 1, n => UInt8.ofNat n :: bytesOf k (n / 256)

def natOf : Bytes → Nat
  | [] => 0
  | c :: cs => c.toNat + 256 * natOf cs

/-- The memory of an `int`, given by its bits. -/
def intBytes (x : BitVec 32) : Bytes := bytesOf 4 x.toNat

def arrayBytes (array : List (BitVec 32)) : Bytes := array.flatMap intBytes

/-- The array that lies in memory. -/
def arrayOf : Bytes → List (BitVec 32)
  | c0 :: c1 :: c2 :: c3 :: bytes => BitVec.ofNat 32 (natOf [c0, c1, c2, c3]) :: arrayOf bytes
  | _ => []

/-- A process that runs `sorter`. -/
structure Worker where
  mapping : Mapping
  writer : Writer
  exited : Bool
  deriving DecidableEq

/-- A worker from its `fork` on, with what it is going to have sorted: it writes `size` and then the
array. -/
def sorter (memSize : Nat) (array : List (BitVec 32)) : Worker :=
  ⟨⟨false, true, List.replicate memSize (some 0)⟩,
    ⟨.wait, [intBytes (BitVec.ofNat 32 array.length), arrayBytes array]⟩, false⟩

inductive Main where
  | forking
  /-- Reading `w->size`. -/
  | size (r : Reader)
  /-- Reading `w->array`. -/
  | array (r : Reader)
  /-- In `wait`, and then at the sum of the sizes. -/
  | waiting
  /-- In front of the `memcpy` of an array to `pos`. -/
  | filling (i pos : Nat)
  | done
  deriving DecidableEq

/-- The processes of the program. `files` is what the workers that are not forked yet are going to
have sorted, and `arrays` the fields `array` that `main` has filled; the field `size` of a worker is
the length of its array. -/
structure State where
  files : List (List (BitVec 32))
  workers : List Worker
  main : Main
  arrays : List (List (BitVec 32))
  waited : Nat
  totalSize : Nat
  /-- Empty as long as it is not allocated. -/
  totalArray : Block (BitVec 32)
  deriving DecidableEq

inductive Party where
  | main
  | worker (k : Nat)
  deriving DecidableEq

namespace State

def start (files : List (List (BitVec 32))) : State := ⟨files, [], .forking, [], 0, 0, []⟩

/-- The condition of the second loop of `main`, in front of worker `i`; behind it, `total_array` is
allocated. -/
def next (s : State) (i : Nat) : State :=
  if i < s.workers.length then { s with main := .size ⟨.wait, 4, []⟩ }
  else { s with main := .filling 0 0, totalArray := Block.allocate s.totalSize }

/-- Worker `i`, whose mapping `main` has changed. -/
def putMapping (s : State) (i : Nat) (w : Worker) (m : Mapping) : State :=
  { s with workers := s.workers.set i { w with mapping := m } }

@[simp] theorem next_files (s : State) (i : Nat) : (s.next i).files = s.files := by
  rw [next]
  split <;> rfl

@[simp] theorem next_workers (s : State) (i : Nat) : (s.next i).workers = s.workers := by
  rw [next]
  split <;> rfl

@[simp] theorem putMapping_arrays (s : State) (i : Nat) (w : Worker) (m : Mapping) :
    (s.putMapping i w m).arrays = s.arrays := rfl

def stepMain (memSize : Nat) (s : State) : Option State :=
  match s.main with
  | .forking =>
    match s.files with
    | array :: files => some { s with files, workers := s.workers ++ [sorter memSize array] }
    | [] => some (s.next 0)
  | .size r => do
    let w ← s.workers[s.arrays.length]?
    let (m, x) ← r.step memSize w.mapping
    let s := s.putMapping s.arrays.length w m
    match x with
    | .inl bytes => some { s with main := .array ⟨.wait, 4 * natOf bytes, []⟩ }
    | .inr r => some { s with main := .size r }
  | .array r => do
    let w ← s.workers[s.arrays.length]?
    let (m, x) ← r.step memSize w.mapping
    let s := s.putMapping s.arrays.length w m
    match x with
    | .inl bytes => some { s with main := .waiting, arrays := s.arrays ++ [arrayOf bytes] }
    | .inr r => some { s with main := .array r }
  | .waiting =>
    if s.waited < s.workers.countP Worker.exited then
      let totalSize := s.totalSize + (s.arrays.getLast?.map List.length).getD 0
      -- the sum of two `int`
      if totalSize < 2 ^ 31 then
        some ({ s with waited := s.waited + 1, totalSize }.next s.arrays.length)
      else none
    else some s
  | .filling i pos =>
    if i < s.workers.length then do
      let array ← s.arrays[i]?
      let totalArray ← s.totalArray.storeAll pos array
      some { s with main := .filling (i + 1) (pos + array.length), totalArray }
    else some { s with main := .done }
  | .done => none

def stepWorker (memSize : Nat) (s : State) (k : Nat) : Option State := do
  let w ← s.workers[k]?
  if w.writer.calls = [] then
    if w.exited then none else some { s with workers := s.workers.set k { w with exited := true } }
  else do
    let (mapping, writer) ← w.writer.step memSize w.mapping
    some { s with workers := s.workers.set k { w with mapping, writer } }

/-- One step of the program. A process that waits for another one looks again and again. -/
def step (memSize : Nat) : Party → State → Option (Unit × State)
  | .main, s => (s.stepMain memSize).map fun s => ((), s)
  | .worker k, s => (s.stepWorker memSize k).map fun s => ((), s)

end State

theorem length_bytesOf (k n : Nat) : (bytesOf k n).length = k := by
  induction k generalizing n with
  | zero => rfl
  | succ k ih => rw [bytesOf, List.length_cons, ih]

theorem natOf_bytesOf (k n : Nat) : natOf (bytesOf k n) = n % 256 ^ k := by
  induction k generalizing n with
  | zero => rw [Nat.pow_zero, Nat.mod_one]; rfl
  | succ k ih =>
    have byte : (UInt8.ofNat n).toNat = n % 256 := by simp
    rw [bytesOf, natOf, ih, byte, Nat.pow_succ, Nat.mul_comm (256 ^ k), Nat.mod_mul]

theorem length_intBytes (x : BitVec 32) : (intBytes x).length = 4 := length_bytesOf 4 _

theorem natOf_intBytes (x : BitVec 32) : natOf (intBytes x) = x.toNat := by
  rw [intBytes, natOf_bytesOf]
  exact Nat.mod_eq_of_lt x.isLt

theorem arrayOf_intBytes (x : BitVec 32) (bytes : Bytes) :
    arrayOf (intBytes x ++ bytes) = x :: arrayOf bytes := by
  have head : BitVec.ofNat 32 (natOf (intBytes x)) = x := by
    rw [natOf_intBytes, BitVec.ofNat_toNat, BitVec.setWidth_eq]
  exact congrArg (· :: arrayOf bytes) head

/-- An array is read back from its memory. -/
theorem arrayOf_arrayBytes (array : List (BitVec 32)) : arrayOf (arrayBytes array) = array := by
  induction array with
  | nil => rfl
  | cons x array ih =>
    rw [arrayBytes, List.flatMap_cons, arrayOf_intBytes]
    exact congrArg (x :: ·) ih

theorem length_arrayBytes (array : List (BitVec 32)) :
    (arrayBytes array).length = 4 * array.length := by
  induction array with
  | nil => rfl
  | cons x array ih =>
    rw [arrayBytes, List.flatMap_cons, List.length_append, List.length_cons, length_intBytes]
    rw [arrayBytes] at ih
    omega

/-- No `int` runs over: neither the number of bytes of an array, nor that of all numbers. -/
structure Small (all : List (List (BitVec 32))) : Prop where
  fits : ∀ a ∈ all, 4 * a.length < 2 ^ 31
  total : all.flatten.length < 2 ^ 31

/-- What a worker writes. -/
def calls (array : List (BitVec 32)) : List Bytes :=
  [intBytes (BitVec.ofNat 32 array.length), arrayBytes array]

def callsCost (array : List (BitVec 32)) : Nat :=
  ((calls array).map fun b => cost b.length).sum + 1

def Worker.rank (memSize : Nat) (w : Worker) : Nat :=
  w.writer.rank memSize + if w.exited then 0 else 1

/-- The worker and `main`, that has yet to get `left` from it and stands at `pc`. -/
structure Worker.Synced (memSize : Nat) (left : List Bytes) (pc : Pc) (w : Worker) : Prop where
  sync : Sync memSize w.mapping w.writer left pc
  memory : w.mapping.mem.length = memSize
  exited : w.exited = true → w.writer.calls = []

variable {memSize : Nat}

theorem sorter_synced (array : List (BitVec 32)) :
    (sorter memSize array).Synced memSize (calls array) .wait :=
  ⟨.idle rfl rfl rfl rfl, by simp [sorter], by simp [sorter]⟩

theorem rank_sorter (array : List (BitVec 32)) :
    (sorter memSize array).rank memSize = callsCost array := by
  rw [Worker.rank, sorter, Writer.rank_wait]
  rfl

namespace Main

variable {all : List (List (BitVec 32))} {b : Bytes} {i k : Nat}

/-- What `main` has yet to get from worker `k` when it is at worker `i`, where `b` is what is left
of the call under way. -/
def left (all : List (List (BitVec 32))) (b : Bytes) (i k : Nat) (main : Main) : List Bytes :=
  if k < i then []
  else if i < k then calls (all.getD k [])
  else match main with
    | .size _ => [b, arrayBytes (all.getD k [])]
    | .array _ => [b]
    | _ => calls (all.getD k [])

/-- Where `main` stands in a call that reads from worker `k`. -/
def pcAt (i k : Nat) (main : Main) : Pc :=
  if k = i then
    match main with
    | .size r | .array r => r.pc
    | _ => .wait
  else .wait

theorem left_of_lt (h : k < i) (main : Main) : main.left all b i k = [] := if_pos h

theorem left_of_gt (h : i < k) (main : Main) : main.left all b i k = calls (all.getD k []) :=
  (if_neg (Nat.lt_asymm h)).trans (if_pos h)

/-- The call under way. -/
def reader : Main → Option Reader
  | .size r | .array r => some r
  | .forking | .waiting | .filling _ _ | .done => none

theorem left_idle {main : Main} (h : main.reader = none) :
    main.left all b i k = if k < i then [] else calls (all.getD k []) := by
  cases main with
  | size r => cases h
  | array r => cases h
  | _ => simp [left]

theorem pcAt_idle {main : Main} (h : main.reader = none) : main.pcAt i k = .wait := by
  cases main with
  | size r => cases h
  | array r => cases h
  | _ => simp [pcAt]

theorem pcAt_of_ne (h : k ≠ i) (main : Main) : main.pcAt i k = .wait := if_neg h

end Main

namespace State

variable {all : List (List (BitVec 32))} {s t : State}

/-- How far `main` is, with `prior` from the call under way and `b` left of it. -/
def Stands (memSize : Nat) (all : List (List (BitVec 32))) (prior b : Bytes) (s : State) : Prop :=
  match s.main with
  | .forking => s.arrays = [] ∧ s.waited = 0
  | .size r =>
    s.arrays.length < all.length ∧ s.waited = s.arrays.length ∧ Reads memSize r prior b ∧
      prior ++ b = intBytes (BitVec.ofNat 32 (all.getD s.arrays.length []).length)
  | .array r =>
    s.arrays.length < all.length ∧ s.waited = s.arrays.length ∧ Reads memSize r prior b ∧
      prior ++ b = arrayBytes (all.getD s.arrays.length [])
  | .waiting => s.waited + 1 = s.arrays.length
  | .filling i pos =>
    s.arrays = all ∧ i ≤ all.length ∧ pos = (all.take i).flatten.length ∧
      s.totalArray.length = all.flatten.length ∧ s.totalArray.Holds (all.take i).flatten
  | .done => s.arrays = all ∧ s.totalArray = all.flatten.map some

structure Inv (memSize : Nat) (all : List (List (BitVec 32))) (s : State) : Prop where
  files : all.drop s.workers.length = s.files
  forked : s.main ≠ .forking → s.workers.length = all.length
  count : s.workers.length ≤ all.length
  arrays : s.arrays <+: all
  total : s.totalSize = (s.arrays.take s.waited).flatten.length
  main : ∃ prior b, s.Stands memSize all prior b ∧
    ∀ k (w : Worker), s.workers[k]? = some w →
      w.Synced memSize (s.main.left all b s.arrays.length k) (s.main.pcAt s.arrays.length k)

/-- What `main` has before it. -/
def mainRank (memSize : Nat) (all : List (List (BitVec 32))) (s : State) : Nat :=
  match s.main with
  | .forking => (all.map callsCost).sum + 1 + (all.length + 1)
  | .size r =>
    r.rank memSize + cost (arrayBytes (all.getD s.arrays.length [])).length + 1 +
      ((all.drop (s.arrays.length + 1)).map callsCost).sum + (all.length + 1)
  | .array r =>
    r.rank memSize + 1 + ((all.drop (s.arrays.length + 1)).map callsCost).sum + (all.length + 1)
  | .waiting => ((all.drop s.arrays.length).map callsCost).sum + 1 + (all.length + 1)
  | .filling i _ => all.length - i + 1
  | .done => 0

def rank (memSize : Nat) (all : List (List (BitVec 32))) (s : State) : Nat :=
  (s.files.map fun a => callsCost a + 1).sum + (s.workers.map (Worker.rank memSize)).sum +
    s.mainRank memSize all

theorem start_inv (memSize : Nat) (all : List (List (BitVec 32))) :
    Inv memSize all (start all) := by
  refine ⟨rfl, fun h => absurd rfl h, Nat.zero_le _, List.nil_prefix, rfl, [], [], ⟨rfl, rfl⟩, ?_⟩
  intro k w hw
  cases hw

/-- A worker that has not exited can go on, and does unless it waits for a flag that is not set. -/
theorem worker_step (pos : 0 < memSize) (h : Inv memSize all s) {k : Nat} {w : Worker}
    (hw : s.workers[k]? = some w) (here : w.exited = false) :
    ∃ t, s.stepWorker memSize k = some t ∧ Inv memSize all t ∧
      (t = s ∧ w.writer.calls ≠ [] ∧ w.mapping.isWritable = false ∧ w.writer.pc = .wait ∨
        t.rank memSize all < s.rank memSize all) := by
  obtain ⟨prior, b, stands, synced⟩ := h.main
  have hs := synced k w hw
  -- whatever the worker comes to, `main` stands where it stood
  have put : ∀ w' : Worker,
      w'.Synced memSize (s.main.left all b s.arrays.length k) (s.main.pcAt s.arrays.length k) →
        Inv memSize all { s with workers := s.workers.set k w' } := by
    intro w' hs'
    refine ⟨?_, ?_, ?_, h.arrays, h.total, prior, b, stands, ?_⟩
    · rw [List.length_set]
      exact h.files
    · rw [List.length_set]
      exact h.forked
    · rw [List.length_set]
      exact h.count
    · intro j v hv
      rcases getElem?_set_cases hv with ⟨rfl, rfl⟩ | ⟨-, hv⟩
      · exact hs'
      · exact synced j v hv
  have lower : ∀ w' : Worker, w'.rank memSize < w.rank memSize →
      rank memSize all { s with workers := s.workers.set k w' } < s.rank memSize all := by
    intro w' lt
    have sum := sum_set_add hw w' (Worker.rank memSize)
    have same : mainRank memSize all { s with workers := s.workers.set k w' } =
        s.mainRank memSize all := rfl
    rw [rank, rank, same]
    dsimp only
    omega
  by_cases last : w.writer.calls = []
  · refine ⟨_, ?_, put { w with exited := true } ⟨hs.sync, hs.memory, fun _ => last⟩,
      .inr (lower _ ?_)⟩
    · simp [stepWorker, hw, last, here]
    · simp [Worker.rank, here]
  · obtain ⟨m, v, hstep, sync, memory, moved⟩ := hs.sync.writer_step hs.memory pos last
    refine ⟨_, ?_, put { w with mapping := m, writer := v } ⟨sync, memory, ?_⟩, ?_⟩
    · simp [stepWorker, hw, last, hstep]
    · simp [here]
    · rcases moved with ⟨rfl, rfl, writable, hpc⟩ | lt
      · have same : s.workers.set k w = s.workers := by
          obtain ⟨hk, eq⟩ := List.getElem?_eq_some_iff.mp hw
          rw [← eq, List.set_getElem_self hk]
        exact .inl ⟨by simp only [same], last, writable, hpc⟩
      · right
        apply lower
        simp only [Worker.rank]
        omega

/-- In front of worker `i` of the second loop. -/
theorem next_inv (files : s.files = []) (count : s.workers.length = all.length)
    (arrays : s.arrays <+: all) (waited : s.waited = s.arrays.length)
    (total : s.totalSize = s.arrays.flatten.length)
    (synced : ∀ k (w : Worker), s.workers[k]? = some w →
      w.Synced memSize (if k < s.arrays.length then [] else calls (all.getD k [])) .wait) :
    Inv memSize all (s.next s.arrays.length) ∧
      mainRank memSize all (s.next s.arrays.length) ≤
        ((all.drop s.arrays.length).map callsCost).sum + (all.length + 1) := by
  have sized : s.totalSize = (s.arrays.take s.waited).flatten.length := by
    rw [waited, List.take_length, total]
  by_cases more : s.arrays.length < s.workers.length
  · have lt : s.arrays.length < all.length := count ▸ more
    rw [next, if_pos more]
    refine ⟨⟨?_, fun _ => count, count.le, arrays, sized, [], intBytes
      (BitVec.ofNat 32 (all.getD s.arrays.length []).length), ?_, ?_⟩, ?_⟩
    · rw [count, List.drop_length, files]
    · exact ⟨lt, waited, ⟨(length_bytesOf _ _).symm, rfl⟩, rfl⟩
    · intro k w hw
      have old := synced k w hw
      rcases Nat.lt_trichotomy k s.arrays.length with lt | rfl | gt
      · rw [if_pos lt] at old
        rw [Main.left_of_lt lt, Main.pcAt_of_ne (Nat.ne_of_lt lt)]
        exact old
      · rw [if_neg (Nat.lt_irrefl _)] at old
        simpa [Main.left, Main.pcAt, calls] using old
      · rw [if_neg (by omega)] at old
        rw [Main.left_of_gt gt, Main.pcAt_of_ne (Nat.ne_of_gt gt)]
        exact old
    · have head : all[s.arrays.length] = all.getD s.arrays.length [] := by
        simp [lt]
      rw [List.drop_eq_getElem_cons lt, List.map_cons, List.sum_cons, head]
      simp only [mainRank, Reader.rank, Pc.passed, callsCost, calls, List.map_cons, List.map_nil,
        List.sum_cons, List.sum_nil, length_intBytes]
      omega
  · have full : s.arrays = all := by
      apply arrays.eq_of_length_le
      omega
    rw [next, if_neg more]
    refine ⟨⟨?_, fun _ => count, count.le, arrays, sized, [], [], ?_, ?_⟩, ?_⟩
    · rw [count, List.drop_length, files]
    · refine ⟨full, Nat.zero_le _, rfl, ?_, Block.holds_nil _⟩
      rw [Block.length_allocate, total, full]
    · intro k w hw
      have hk : k < s.workers.length := (List.getElem?_eq_some_iff.mp hw).1
      have lt : k < s.arrays.length := by omega
      have old := synced k w hw
      rw [if_pos lt] at old
      rw [Main.left_of_lt lt, Main.pcAt_of_ne (Nat.ne_of_lt lt)]
      exact old
    · simp only [mainRank]
      omega

theorem forking_step (h : Inv memSize all s) (hm : s.main = .forking) :
    ∃ t, s.stepMain memSize = some t ∧ Inv memSize all t ∧
      t.rank memSize all < s.rank memSize all := by
  obtain ⟨prior, b, stands, synced⟩ := h.main
  rw [Stands, hm] at stands
  obtain ⟨none, zero⟩ := stands
  have zero_length : s.arrays.length = 0 := by rw [none]; rfl
  have idle : s.main.reader = .none := by rw [hm]; rfl
  simp only [Main.left_idle idle, Main.pcAt_idle idle] at synced
  cases hf : s.files with
  | nil =>
    have count : s.workers.length = all.length := by
      have le := List.drop_eq_nil_iff.mp (h.files.trans hf)
      exact Nat.le_antisymm h.count le
    have empty : s.totalSize = s.arrays.flatten.length := by
      rw [h.total, zero, none]
      rfl
    have hnext := next_inv hf count h.arrays (zero.trans zero_length.symm) empty synced
    rw [zero_length] at hnext
    refine ⟨_, by rw [stepMain, hm, hf], hnext.1, ?_⟩
    have lower := hnext.2
    rw [List.drop_zero] at lower
    have before : s.mainRank memSize all = (all.map callsCost).sum + 1 + (all.length + 1) := by
      rw [mainRank, hm]
    rw [rank, rank, next_files, next_workers]
    omega
  | cons array files =>
    have drop := h.files.trans hf
    have lt : s.workers.length < all.length := by
      apply Nat.lt_of_not_le
      intro le
      rw [List.drop_eq_nil_of_le le] at drop
      cases drop
    rw [List.drop_eq_getElem_cons lt, List.cons.injEq] at drop
    refine ⟨{ s with files, workers := s.workers ++ [sorter memSize array] }, ?_, ?_, ?_⟩
    · rw [stepMain, hm]
      simp only [hf]
    · refine ⟨?_, fun ne => absurd hm ne, ?_, h.arrays, h.total, prior, b, ?_, ?_⟩
      · rw [List.length_append]
        exact drop.2
      · rw [List.length_append]
        exact lt
      · rw [Stands, hm]
        exact ⟨none, zero⟩
      · intro k w hw
        rw [Main.left_idle idle, Main.pcAt_idle idle]
        rw [List.getElem?_append] at hw
        split_ifs at hw with old
        · exact synced k w hw
        · have last : k = s.workers.length := by
            have := (List.getElem?_eq_some_iff.mp hw).1
            rw [List.length_singleton] at this
            omega
          rw [last, Nat.sub_self] at hw
          have eq : all.getD k [] = array := by rw [last, ← drop.1]; simp [lt]
          have behind : ¬ k < s.arrays.length := by omega
          rw [if_neg behind, eq, ← Option.some.inj hw]
          exact sorter_synced array
    · simp only [rank, hf, List.map_append, List.sum_append, List.map_cons, List.map_nil,
        List.sum_cons, List.sum_nil, rank_sorter]
      have same : mainRank memSize all { s with
          files, workers := s.workers ++ [sorter memSize array] } = s.mainRank memSize all := rfl
      omega

theorem flatten_length_le {xs : List (List (BitVec 32))} (h : xs <+: all) :
    xs.flatten.length ≤ all.flatten.length := by
  obtain ⟨ys, rfl⟩ := h
  rw [List.flatten_append, List.length_append]
  exact Nat.le_add_right _ _

theorem waiting_step (small : Small all) (h : Inv memSize all s) (hm : s.main = .waiting) :
    ∃ t, s.stepMain memSize = some t ∧ Inv memSize all t ∧
      (t = s ∧ s.workers.countP Worker.exited ≤ s.waited ∨
        t.rank memSize all < s.rank memSize all) := by
  obtain ⟨prior, b, stands, synced⟩ := h.main
  have idle : s.main.reader = .none := by rw [hm]; rfl
  simp only [Main.left_idle idle, Main.pcAt_idle idle] at synced
  rw [Stands, hm] at stands
  have count := h.forked (by rw [hm]; simp)
  have files : s.files = [] := by rw [← h.files, count, List.drop_length]
  by_cases one : s.waited < s.workers.countP Worker.exited
  · obtain ⟨xs, x, split⟩ : ∃ xs x, s.arrays = xs ++ [x] := by
      have ne : s.arrays ≠ [] := List.ne_nil_of_length_pos (by omega)
      exact ⟨_, _, (List.dropLast_append_getLast ne).symm⟩
    have sum : s.totalSize + (s.arrays.getLast?.map List.length).getD 0 =
        s.arrays.flatten.length := by
      have before : s.waited = xs.length := by
        rw [split, List.length_append, List.length_singleton] at stands
        omega
      rw [h.total, before, split]
      simp
    have room : s.totalSize + (s.arrays.getLast?.map List.length).getD 0 < 2 ^ 31 := by
      have le := flatten_length_le h.arrays
      have total := small.total
      omega
    have hnext := next_inv (s := { s with
      waited := s.waited + 1
      totalSize := s.totalSize + (s.arrays.getLast?.map List.length).getD 0 }) files count
      h.arrays stands sum synced
    refine ⟨_, by rw [stepMain, hm]; simp only [if_pos one, if_pos room], hnext.1, .inr ?_⟩
    have lower := hnext.2
    have before : s.mainRank memSize all =
        ((all.drop s.arrays.length).map callsCost).sum + 1 + (all.length + 1) := by
      rw [mainRank, hm]
    rw [rank, rank, next_files, next_workers]
    dsimp only at lower ⊢
    omega
  · refine ⟨s, by rw [stepMain, hm]; exact if_neg one, h, .inl ⟨rfl, Nat.le_of_not_lt one⟩⟩

/-- The array of the next worker goes behind those that `total_array` holds, and fits there. -/
theorem filling_step (h : Inv memSize all s) {i pos : Nat} (hm : s.main = .filling i pos) :
    ∃ t, s.stepMain memSize = some t ∧ Inv memSize all t ∧
      t.rank memSize all < s.rank memSize all := by
  obtain ⟨prior, b, stands, synced⟩ := h.main
  have idle : s.main.reader = .none := by rw [hm]; rfl
  simp only [Main.left_idle idle, Main.pcAt_idle idle] at synced
  rw [Stands, hm] at stands
  obtain ⟨full, le, hpos, length, holds⟩ := stands
  have count := h.forked (by rw [hm]; simp)
  by_cases more : i < all.length
  · have taken : (all.take i).flatten ++ all[i] = (all.take (i + 1)).flatten := by
      rw [List.take_succ_eq_append_getElem more, List.flatten_append, List.flatten_singleton]
    have fits : (all.take i).flatten.length + all[i].length ≤ s.totalArray.length := by
      rw [← List.length_append, taken, length]
      exact flatten_length_le (List.take_prefix _ _)
    obtain ⟨total, hstore, length', holds'⟩ := holds.storeAll all[i] fits
    rw [taken] at holds'
    have here : s.arrays[i]? = some all[i] := by rw [full, List.getElem?_eq_getElem more]
    refine ⟨{ s with main := .filling (i + 1) (pos + all[i].length), totalArray := total }, ?_, ?_,
      ?_⟩
    · rw [stepMain, hm]
      simp only [count, if_pos more, here, hpos, hstore, Option.bind_eq_bind, Option.bind_some]
    · refine ⟨h.files, fun _ => count, h.count, h.arrays, h.total, [], [], ?_, ?_⟩
      · refine ⟨full, more, ?_, length'.trans length, holds'⟩
        rw [hpos, ← taken, List.length_append]
      · intro k w hw
        rw [Main.left_idle rfl, Main.pcAt_idle rfl]
        exact synced k w hw
    · simp only [rank, mainRank, hm]
      omega
  · have all_taken : all.take i = all := List.take_of_length_le (Nat.le_of_not_lt more)
    rw [all_taken] at holds
    refine ⟨{ s with main := .done }, ?_, ?_, ?_⟩
    · rw [stepMain, hm]
      simp only [count, if_neg more]
    · refine ⟨h.files, fun _ => count, h.count, h.arrays, h.total, [], [], ?_, ?_⟩
      · exact ⟨full, holds.eq_map length.le⟩
      · intro k w hw
        rw [Main.left_idle rfl, Main.pcAt_idle rfl]
        exact synced k w hw
    · simp only [rank, mainRank, hm]
      omega

section Reading

variable {prior b b' : Bytes} {w : Worker}

/-- `main` has changed the mapping of the worker it is at, and nothing for the others. -/
theorem put_inv (h : Inv memSize all s) (ne : s.main ≠ .forking)
    (synced : ∀ k (w : Worker), s.workers[k]? = some w →
      w.Synced memSize (s.main.left all b s.arrays.length k) (s.main.pcAt s.arrays.length k))
    (m : Mapping) {main : Main} {arrays : List (List (BitVec 32))} (prior' b' : Bytes)
    (harrays : arrays <+: all) (htotal : s.totalSize = (arrays.take s.waited).flatten.length)
    (stands : Stands memSize all prior' b' { s with main, arrays })
    (here : { w with mapping := m }.Synced memSize
      (main.left all b' arrays.length s.arrays.length) (main.pcAt arrays.length s.arrays.length))
    (others : ∀ k, k ≠ s.arrays.length →
      main.left all b' arrays.length k = s.main.left all b s.arrays.length k ∧
        main.pcAt arrays.length k = s.main.pcAt s.arrays.length k) :
    Inv memSize all { s.putMapping s.arrays.length w m with main, arrays } := by
  have length : (s.workers.set s.arrays.length { w with mapping := m }).length =
      s.workers.length := List.length_set
  refine ⟨?_, ?_, ?_, harrays, htotal, prior', b', stands, ?_⟩
  · rw [show (s.putMapping s.arrays.length w m).workers.length = s.workers.length from length]
    exact h.files
  · intro _
    exact length.trans (h.forked ne)
  · exact length.le.trans h.count
  · intro k v hv
    rcases getElem?_set_cases hv with ⟨rfl, rfl⟩ | ⟨ne, hv⟩
    · exact here
    · obtain ⟨left, pc⟩ := others k ne
      rw [left, pc]
      exact synced k v hv

/-- The rank of the workers does not count what `main` does to a mapping. -/
theorem sum_putMapping (hw : s.workers[s.arrays.length]? = some w) (m : Mapping) :
    ((s.putMapping s.arrays.length w m).workers.map (Worker.rank memSize)).sum =
      (s.workers.map (Worker.rank memSize)).sum := by
  have sum := sum_set_add hw { w with mapping := m } (Worker.rank memSize)
  have same : Worker.rank memSize { w with mapping := m } = w.rank memSize := rfl
  rw [same] at sum
  exact Nat.add_right_cancel sum

theorem rank_put (hw : s.workers[s.arrays.length]? = some w) (m : Mapping) {main : Main}
    {arrays : List (List (BitVec 32))}
    (lower : mainRank memSize all { s with main, arrays } < s.mainRank memSize all) :
    rank memSize all { s.putMapping s.arrays.length w m with main, arrays } <
      s.rank memSize all := by
  have sum : ((s.putMapping s.arrays.length w m).workers.map (Worker.rank memSize)).sum = _ :=
    sum_putMapping hw m
  have same : mainRank memSize all { s.putMapping s.arrays.length w m with main, arrays } =
      mainRank memSize all { s with main, arrays } := rfl
  have files : (s.putMapping s.arrays.length w m).files = s.files := rfl
  rw [rank, rank, same]
  dsimp only
  rw [sum, files]
  omega

theorem putMapping_self (hw : s.workers[s.arrays.length]? = some w) :
    s.putMapping s.arrays.length w w.mapping = s := by
  obtain ⟨hk, eq⟩ := List.getElem?_eq_some_iff.mp hw
  have same : s.workers.set s.arrays.length w = s.workers := by rw [← eq, List.set_getElem_self hk]
  rw [putMapping]
  simp only [same]

/-- The others of the workers are as far from `main` as before. -/
theorem others_same {main main' : Main} {i k : Nat} (h : k ≠ i) :
    main'.left all b' i k = main.left all b i k ∧ main'.pcAt i k = main.pcAt i k := by
  refine ⟨?_, by rw [Main.pcAt_of_ne h, Main.pcAt_of_ne h]⟩
  rcases Nat.lt_or_gt_of_ne h with lt | gt
  · rw [Main.left_of_lt lt, Main.left_of_lt lt]
  · rw [Main.left_of_gt gt, Main.left_of_gt gt]

/-- The worker that `main` is at has been forked. -/
theorem worker_there (h : Inv memSize all s) (ne : s.main ≠ .forking)
    (lt : s.arrays.length < all.length) : ∃ w, s.workers[s.arrays.length]? = some w := by
  have hlt : s.arrays.length < s.workers.length := by rw [h.forked ne]; exact lt
  exact ⟨_, List.getElem?_eq_getElem hlt⟩

/-- `main` stays in the call that reads from this worker. -/
theorem goes_step (h : Inv memSize all s) (ne : s.main ≠ .forking)
    (synced : ∀ k (w : Worker), s.workers[k]? = some w →
      w.Synced memSize (s.main.left all b s.arrays.length k) (s.main.pcAt s.arrays.length k))
    (hw : s.workers[s.arrays.length]? = some w) {m : Mapping} {main : Main} {r r' : Reader}
    {again : Reader → Main} (hm : s.main = again r) (hm' : main = again r')
    (stands : Stands memSize all prior b' { s with main })
    (here : { w with mapping := m }.Synced memSize
      (main.left all b' s.arrays.length s.arrays.length)
      (main.pcAt s.arrays.length s.arrays.length))
    (moved : m = w.mapping ∧ r' = r ∧ w.mapping.isReadable = false ∧ r.pc = .wait ∨
      mainRank memSize all { s with main } < s.mainRank memSize all) :
    Inv memSize all { s.putMapping s.arrays.length w m with main } ∧
      ({ s.putMapping s.arrays.length w m with main } = s ∧ w.mapping.isReadable = false ∧
          r.pc = .wait ∨
        rank memSize all { s.putMapping s.arrays.length w m with main } < s.rank memSize all) := by
  refine ⟨?_, ?_⟩
  · apply put_inv h ne synced m prior b' h.arrays h.total stands here
    intro k ne
    exact others_same ne
  · rcases moved with ⟨rfl, rfl, readable, hpc⟩ | lower
    · refine .inl ⟨?_, readable, hpc⟩
      rw [putMapping_self hw, hm', ← hm]
    · exact .inr (rank_put hw m lower)

theorem size_step (pos : 0 < memSize) (small : Small all)
    (h : Inv memSize all s) {r : Reader} (hm : s.main = .size r) :
    ∃ w t, s.workers[s.arrays.length]? = some w ∧ s.stepMain memSize = some t ∧
      Inv memSize all t ∧ (t = s ∧ w.mapping.isReadable = false ∧ r.pc = .wait ∨
        t.rank memSize all < s.rank memSize all) := by
  obtain ⟨prior, b, stands, synced⟩ := h.main
  rw [Stands, hm] at stands
  obtain ⟨lt, waited, reads, whole⟩ := stands
  have forked : s.main ≠ .forking := by rw [hm]; simp
  obtain ⟨w, hw⟩ := worker_there h forked lt
  have hs := synced _ _ hw
  simp only [hm, Main.left, Main.pcAt, Nat.lt_irrefl, if_false, if_true] at hs
  obtain ⟨m, x, hstep, mem, outcome⟩ := hs.sync.reader_step reads pos
  cases outcome with
  | returned sync rank_pos =>
    have short := small.fits _ (List.getElem_mem lt)
    have bytes : natOf (prior ++ b) = (all.getD s.arrays.length []).length := by
      rw [whole, natOf_intBytes, BitVec.toNat_ofNat, Nat.mod_eq_of_lt]
      rw [List.getD_eq_getElem?_getD, List.getElem?_eq_getElem lt, Option.getD_some]
      omega
    refine ⟨w, { s.putMapping s.arrays.length w m with
      main := .array ⟨.wait, 4 * natOf (prior ++ b), []⟩ }, hw, ?_, ?_, .inr ?_⟩
    · simp only [stepMain, hm, hw, hstep, Option.bind_eq_bind, Option.bind_some]
    · apply put_inv h forked synced m [] (arrayBytes (all.getD s.arrays.length [])) h.arrays h.total
      · exact ⟨lt, waited, ⟨by rw [bytes, length_arrayBytes], rfl⟩, rfl⟩
      · simp only [Main.left, Main.pcAt, Nat.lt_irrefl, if_false, if_true]
        exact ⟨sync, by rw [← hs.memory, ← mem], hs.exited⟩
      · intro k ne
        exact others_same ne
    · apply rank_put hw m
      simp only [mainRank, hm, Reader.rank_wait, bytes, length_arrayBytes, putMapping_arrays]
      omega
  | @goes r' prior' b' split reads' sync moved =>
    refine ⟨w, { s.putMapping s.arrays.length w m with main := .size r' }, hw, ?_, ?_⟩
    · simp only [stepMain, hm, hw, hstep, Option.bind_eq_bind, Option.bind_some]
    · apply goes_step h forked synced hw hm rfl
      · exact ⟨lt, waited, reads', split.trans whole⟩
      · simp only [Main.left, Main.pcAt, Nat.lt_irrefl, if_false, if_true]
        exact ⟨sync, by rw [← hs.memory, ← mem], hs.exited⟩
      · apply moved.imp_right
        intro lower
        simp only [mainRank, hm]
        omega

theorem array_step (pos : 0 < memSize) (h : Inv memSize all s) {r : Reader}
    (hm : s.main = .array r) :
    ∃ w t, s.workers[s.arrays.length]? = some w ∧ s.stepMain memSize = some t ∧
      Inv memSize all t ∧ (t = s ∧ w.mapping.isReadable = false ∧ r.pc = .wait ∨
        t.rank memSize all < s.rank memSize all) := by
  obtain ⟨prior, b, stands, synced⟩ := h.main
  rw [Stands, hm] at stands
  obtain ⟨lt, waited, reads, whole⟩ := stands
  have forked : s.main ≠ .forking := by rw [hm]; simp
  obtain ⟨w, hw⟩ := worker_there h forked lt
  have hs := synced _ _ hw
  simp only [hm, Main.left, Main.pcAt, Nat.lt_irrefl, if_false, if_true] at hs
  obtain ⟨m, x, hstep, mem, outcome⟩ := hs.sync.reader_step reads pos
  cases outcome with
  | returned sync rank_pos =>
    have array : arrayOf (prior ++ b) = all[s.arrays.length] := by
      rw [whole, arrayOf_arrayBytes, List.getD_eq_getElem?_getD, List.getElem?_eq_getElem lt,
        Option.getD_some]
    have length : (s.arrays ++ [arrayOf (prior ++ b)]).length = s.arrays.length + 1 := by
      rw [List.length_append, List.length_singleton]
    refine ⟨w, { s.putMapping s.arrays.length w m with
      main := .waiting, arrays := s.arrays ++ [arrayOf (prior ++ b)] }, hw, ?_, ?_, .inr ?_⟩
    · simp only [stepMain, hm, hw, hstep, Option.bind_eq_bind, Option.bind_some, putMapping_arrays]
    · apply put_inv h forked synced m [] []
      · have taken : s.arrays ++ [all[s.arrays.length]] = all.take (s.arrays.length + 1) := by
          rw [List.take_succ_eq_append_getElem lt, ← List.prefix_iff_eq_take.mp h.arrays]
        rw [array, taken]
        exact List.take_prefix _ _
      · rw [h.total, waited, List.take_append_of_le_length (Nat.le_refl _)]
      · show s.waited + 1 = (s.arrays ++ [arrayOf (prior ++ b)]).length
        rw [length, waited]
      · have lt := Nat.lt_succ_self s.arrays.length
        rw [length, Main.left_of_lt lt, Main.pcAt_of_ne (Nat.ne_of_lt lt)]
        exact ⟨sync, by rw [← hs.memory, ← mem], hs.exited⟩
      · intro k ne
        rw [length, Main.left_idle rfl, Main.pcAt_idle rfl, Main.pcAt_of_ne ne]
        rcases Nat.lt_or_gt_of_ne ne with lt | gt
        · rw [Main.left_of_lt lt, if_pos (Nat.lt_succ_of_lt lt)]
          exact ⟨rfl, rfl⟩
        · rw [Main.left_of_gt gt, if_neg (Nat.not_lt.mpr gt)]
          exact ⟨rfl, rfl⟩
    · apply rank_put hw m
      simp only [mainRank, hm, length]
      omega
  | @goes r' prior' b' split reads' sync moved =>
    refine ⟨w, { s.putMapping s.arrays.length w m with main := .array r' }, hw, ?_, ?_⟩
    · simp only [stepMain, hm, hw, hstep, Option.bind_eq_bind, Option.bind_some]
    · apply goes_step h forked synced hw hm rfl
      · exact ⟨lt, waited, reads', split.trans whole⟩
      · simp only [Main.left, Main.pcAt, Nat.lt_irrefl, if_false, if_true]
        exact ⟨sync, by rw [← hs.memory, ← mem], hs.exited⟩
      · apply moved.imp_right
        intro lower
        simp only [mainRank, hm]
        omega

end Reading

/-- `main` waits for a worker to set its flag, or for one to exit. -/
def Blocked (s : State) : Prop :=
  (∃ w r, s.workers[s.arrays.length]? = some w ∧ (s.main = .size r ∨ s.main = .array r) ∧
    w.mapping.isReadable = false ∧ r.pc = .wait) ∨
  s.main = .waiting ∧ s.workers.countP Worker.exited ≤ s.waited

/-- `main` goes on to its end, unless it is blocked. -/
theorem main_step (pos : 0 < memSize) (small : Small all)
    (h : Inv memSize all s) (hm : s.main ≠ .done) :
    ∃ t, s.stepMain memSize = some t ∧ Inv memSize all t ∧
      (t = s ∧ s.Blocked ∨ t.rank memSize all < s.rank memSize all) := by
  cases hmain : s.main with
  | forking =>
    obtain ⟨t, ht, inv, lower⟩ := forking_step h hmain
    exact ⟨t, ht, inv, .inr lower⟩
  | size r =>
    obtain ⟨w, t, hw, ht, inv, ⟨same, readable, hpc⟩ | lower⟩ := size_step pos small h hmain
    · exact ⟨t, ht, inv, .inl ⟨same, .inl ⟨w, r, hw, .inl hmain, readable, hpc⟩⟩⟩
    · exact ⟨t, ht, inv, .inr lower⟩
  | array r =>
    obtain ⟨w, t, hw, ht, inv, ⟨same, readable, hpc⟩ | lower⟩ := array_step pos h hmain
    · exact ⟨t, ht, inv, .inl ⟨same, .inl ⟨w, r, hw, .inr hmain, readable, hpc⟩⟩⟩
    · exact ⟨t, ht, inv, .inr lower⟩
  | waiting =>
    obtain ⟨t, ht, inv, ⟨same, few⟩ | lower⟩ := waiting_step small h hmain
    · exact ⟨t, ht, inv, .inl ⟨same, .inr ⟨hmain, few⟩⟩⟩
    · exact ⟨t, ht, inv, .inr lower⟩
  | filling i pos =>
    obtain ⟨t, ht, inv, lower⟩ := filling_step h hmain
    exact ⟨t, ht, inv, .inr lower⟩
  | done => exact absurd hmain hm

/-- Every step keeps the invariant, and goes on or changes nothing. -/
theorem step_inv (pos : 0 < memSize) (small : Small all)
    (p : Party) (s : State) (u : Unit) (t : State) (h : Inv memSize all s)
    (hstep : step memSize p s = some (u, t)) :
    Inv memSize all t ∧ (t = s ∨ t.rank memSize all < s.rank memSize all) := by
  cases p with
  | main =>
    have ht' := eq_some_of_map hstep
    have going : s.main ≠ .done := by
      intro done
      rw [stepMain, done] at ht'
      cases ht'
    obtain ⟨t, ht, inv, moved⟩ := main_step pos small h going
    rw [ht] at ht'
    cases ht'
    exact ⟨inv, moved.imp_left And.left⟩
  | worker k =>
    have ht' := eq_some_of_map hstep
    cases hw : s.workers[k]? with
    | none =>
      rw [stepWorker, hw] at ht'
      cases ht'
    | some w =>
      cases here : w.exited with
      | true =>
        obtain ⟨prior, b, -, synced⟩ := h.main
        have last := (synced k w hw).exited here
        simp [stepWorker, hw, last, here] at ht'
      | false =>
        obtain ⟨t, ht, inv, moved⟩ := worker_step pos h hw here
        rw [ht] at ht'
        cases ht'
        exact ⟨inv, moved.imp_left And.left⟩

/-- `main` and the workers. -/
def IsParty (all : List (List (BitVec 32))) (p : Party) : Prop :=
  p = .main ∨ ∃ k < all.length, p = .worker k

/-- Before the end somebody goes on. -/
theorem exists_step (pos : 0 < memSize) (small : Small all)
    (h : Inv memSize all s) (hm : s.main ≠ .done) :
    ∃ p t, IsParty all p ∧ step memSize p s = some ((), t) ∧
      t.rank memSize all < s.rank memSize all := by
  -- a worker that has not exited, and that is not blocked
  have worker : ∀ (k : Nat) (w : Worker), s.workers[k]? = some w → w.exited = false →
      (w.writer.calls ≠ [] → ¬ (w.mapping.isWritable = false ∧ w.writer.pc = .wait)) →
      ∃ p t, IsParty all p ∧ step memSize p s = some ((), t) ∧
        t.rank memSize all < s.rank memSize all := by
    intro k w hw here free
    have hk := (List.getElem?_eq_some_iff.mp hw).1
    obtain ⟨t, ht, -, ⟨-, ne, stuck⟩ | lower⟩ := worker_step pos h hw here
    · exact absurd stuck (free ne)
    · refine ⟨.worker k, t, .inr ⟨k, Nat.lt_of_lt_of_le hk h.count, rfl⟩, ?_, lower⟩
      rw [step, ht]
      rfl
  obtain ⟨prior, b, stands, synced⟩ := h.main
  obtain ⟨t, ht, inv, ⟨-, blocked⟩ | lower⟩ := main_step pos small h hm
  · rcases blocked with ⟨w, r, hw, hmain, readable, hpc⟩ | ⟨hmain, few⟩
    · have hs := synced _ _ hw
      have moves : w.writer.calls ≠ [] ∧
          ¬ (w.mapping.isWritable = false ∧ w.writer.pc = .wait) := by
        rcases hmain with hmain | hmain
        · simp only [hmain, Main.left, Main.pcAt, Nat.lt_irrefl, if_false, if_true] at hs
          exact hs.sync.moves.resolve_right (not_not_intro ⟨readable, hpc⟩)
        · simp only [hmain, Main.left, Main.pcAt, Nat.lt_irrefl, if_false, if_true] at hs
          exact hs.sync.moves.resolve_right (not_not_intro ⟨readable, hpc⟩)
      apply worker _ w hw
      · apply Bool.eq_false_of_not_eq_true
        intro exited
        exact moves.1 (hs.exited exited)
      · exact fun _ => moves.2
    · rw [Stands, hmain] at stands
      have count := h.forked (by rw [hmain]; simp)
      have le := h.arrays.length_le
      obtain ⟨k, w, hk, hw, here⟩ : ∃ (k : Nat) (w : Worker), k < s.arrays.length ∧
          s.workers[k]? = some w ∧ w.exited = false := by
        by_contra none
        have all_exited : s.arrays.length ≤ s.workers.countP Worker.exited := by
          apply le_countP_of_first (by omega)
          intro k w hk hw
          apply Bool.eq_true_of_not_eq_false
          intro here
          exact none ⟨k, w, hk, hw, here⟩
        omega
      apply worker k w hw here
      intro ne
      have hs := (synced k w hw).sync
      rw [Main.left_of_lt hk] at hs
      exact absurd hs.through ne
  · exact ⟨.main, t, .inl rfl, by rw [step, ht]; rfl, lower⟩

/-- No process stands still for good, the arrays that `main` has are those of the first workers, and
no worker is in `memcpy` while `main` copies from its mapping. -/
structure Safe (memSize : Nat) (all : List (List (BitVec 32))) (s : State) : Prop where
  arrays : s.arrays <+: all
  main : s.main ≠ .done → (s.stepMain memSize).isSome
  workers : ∀ k (w : Worker), s.workers[k]? = some w → w.exited = false →
    (s.stepWorker memSize k).isSome
  exclusive : ∀ (w : Worker) r, s.workers[s.arrays.length]? = some w → s.main.reader = some r →
    ∀ j, w.writer.pc = .copy j → ∀ i, r.pc ≠ .copy i

theorem Inv.safe (pos : 0 < memSize) (small : Small all)
    (h : Inv memSize all s) : Safe memSize all s := by
  refine ⟨h.arrays, ?_, ?_, ?_⟩
  · intro going
    obtain ⟨t, ht, -⟩ := main_step pos small h going
    exact Option.isSome_of_eq_some ht
  · intro k w hw here
    obtain ⟨t, ht, -⟩ := worker_step pos h hw here
    exact Option.isSome_of_eq_some ht
  · intro w r hw hr j hj i
    obtain ⟨prior, b, -, synced⟩ := h.main
    have hs := (synced _ _ hw).sync
    have hpc : s.main.pcAt s.arrays.length s.arrays.length = r.pc := by
      cases hm : s.main with
      | size r' =>
        rw [hm] at hr
        cases hr
        simp [Main.pcAt]
      | array r' =>
        rw [hm] at hr
        cases hr
        simp [Main.pcAt]
      | _ =>
        rw [hm] at hr
        cases hr
    rw [hpc] at hs
    exact hs.exclusive hj

end State

/-- Whatever the order in which the processes go on, every state is safe; and where each of them has
its turn again and again, `main` comes to its end with all arrays in `total_array`, one after
another. `memSize` is `MEM_SIZE - MEM_META_SIZE`. -/
theorem arrays_delivered (memSize : Nat) (pos : 0 < memSize) (all : List (List (BitVec 32)))
    (small : Small all) (schedule : Nat → Party) :
    (∀ n, (follow (State.step memSize) schedule (.start all) n).Safe memSize all) ∧
      (Fair id (State.IsParty all) schedule →
        ∃ n, (follow (State.step memSize) schedule (.start all) n).main = .done ∧
          (follow (State.step memSize) schedule (.start all) n).totalArray =
            all.flatten.map some) := by
  have hstep := State.step_inv pos small
  have start := State.start_inv memSize all
  refine ⟨?_, ?_⟩
  · intro n
    have inv := follow_inv (State.step memSize) (State.Inv memSize all)
      (fun a s b t hs ht => (hstep a s b t hs ht).1) schedule _ start n
    exact inv.safe pos small
  · intro fair
    obtain ⟨n, inv, done⟩ := fair_reaches (State.step memSize) (State.Inv memSize all)
      (fun s => s.main = .done) (State.rank memSize all) hstep
      (by
        intro s hs going
        obtain ⟨p, t, party, ht, lower⟩ := State.exists_step pos small hs going
        refine ⟨p, (), t, party, ht, ?_⟩
        rintro rfl
        exact Nat.lt_irrefl _ lower)
      schedule fair _ start
    obtain ⟨prior, b, stands, -⟩ := inv.main
    rw [State.Stands, done] at stands
    exact ⟨n, done, stands.2⟩

/-- Two workers and four bytes behind the flags, with the processes in turn. -/
theorem arrays_delivered_two :
    ∃ n, (follow (State.step 4) (fun n => if n % 3 = 0 then .main else .worker (n % 3 - 1))
      (.start [[3, 5], [7]]) n).totalArray = [some 3, some 5, some 7] := by
  obtain ⟨n, -, total⟩ := (arrays_delivered 4 (by decide) [[3, 5], [7]] ⟨by decide, by decide⟩
    fun n => if n % 3 = 0 then .main else .worker (n % 3 - 1)).2 (by
      intro p party n
      rcases party with rfl | ⟨k, hk, rfl⟩
      · exact ⟨3 * n, by omega, if_pos (by omega)⟩
      · have two : k < 2 := hk
        have turn : (3 * n + (k + 1)) % 3 = k + 1 := by omega
        exact ⟨3 * n + (k + 1), by omega, by simp [turn]⟩)
  exact ⟨n, total⟩

end Sysprog.Ipc
